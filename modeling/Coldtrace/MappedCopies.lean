import Mathlib.Data.List.Basic
import Mathlib.Data.List.Infix
import Mathlib.Tactic.Common
import Coldtrace.Lib.CString
import Coldtrace.Lib.Decimal
import Coldtrace.Lib.FileTree
import Coldtrace.Config
import Coldtrace.MappedFiles
import Coldtrace.Procmaps

/-!
# What the copies keep

The copies are made in a directory that other threads write traces to.  They stay
in that directory, they make nothing but directories and files at the paths that
are listed, and they never write a file with the extension of traces
(`copies_confined`).  A file that was copied has the bytes of its source
(`copies_equal`), if the source is outside of the directory and no read or write
fails.  In the root it has none (`root_copies_empty`).

This is so without links, which the tree does not have, and for the lists that
`Copyable` admits.  The paths come from the kernel, which never lists a `..`.  A
mapped device can be listed, and copying it need not end.
-/

namespace Coldtrace

open CString FileTree
open Decimal (ascii)

/-! ## What is kept -/

/-- The directories on the way to the copies. -/
def MadeFor (D : Location) (paths : List (List UInt8)) (loc : Location) : Prop :=
  ∃ p ∈ paths, ∃ more, more <+: location p ∧ loc = D ++ more

/-- The list and the copies. -/
def WrittenFor (D : Location) (paths : List (List UInt8)) (loc : Location) : Prop :=
  loc = D ++ [ascii "maps"] ∨ ∃ p ∈ paths, loc = D ++ location p ∧ Named p

/-- A device or a pipe is at the path, or where its copy is to be. -/
def Special (t : Tree) (D : Location) (p : List UInt8) : Prop :=
  t.node (location p) = some .special ∨ t.node (D ++ location p) = some .special

/-- What is asked of the paths of a list: no `..`, nothing special, not the list itself,
and together they fit `unique`. -/
structure Copyable (t : Tree) (D : Location) (paths : List (List UInt8)) : Prop where
  up : ∀ p ∈ paths, dotDot ∉ names p
  plain : ∀ p ∈ paths, ¬ Special t D p
  other : ∀ p ∈ paths, location p ≠ [ascii "maps"]
  fit : (joinedPaths paths).length < uniqueSize

/-- All bytes are read and written and the directory of the copies has none of the
sources, or it is the root. -/
def Faithful (o : FileTree.Outcomes) (D : Location) (paths : List (List UInt8)) : Prop :=
  D = [] ∨ o.Whole ∧ ∀ p ∈ paths, ¬ D <+: location p

/-- What a copy ends up with.  In the root a file is copied onto itself. -/
def copyOf (t : Tree) (D : Location) (p : List UInt8) : List UInt8 :=
  if D = [] then [] else t.bytes (location p)

/-- The volume after some of the paths were copied. -/
structure Kept (o : FileTree.Outcomes) (t : Tree) (D : Location) (paths marked : List (List UInt8))
    (d : Volume) : Prop where
  changes : Changes (MadeFor D paths) (WrittenFor D paths) t d.tree
  equal : Faithful o D paths → ∀ p ∈ marked,
    d.tree.node (D ++ location p) = some (.file (copyOf t D p))

section

variable {o : FileTree.Outcomes} {cwd D loc : Location} {path p : List UInt8} {t : Tree}
  {d d' : Volume} {paths marked : List (List UInt8)}

theorem MadeFor.below (h : MadeFor D paths loc) : D <+: loc := by
  obtain ⟨p, -, more, -, rfl⟩ := h
  exact List.prefix_append ..

theorem WrittenFor.below (h : WrittenFor D paths loc) : D <+: loc := by
  rcases h with rfl | ⟨p, -, rfl, -⟩
  · exact List.prefix_append ..
  · exact List.prefix_append ..

/-- What is outside of the directory is as before. -/
theorem Kept.node_eq (h : Kept o t D paths marked d) (hout : ¬ D <+: loc) :
    d.tree.node loc = t.node loc :=
  h.changes.node_eq (fun hm => hout hm.below) fun hw => hout hw.below

/-- The location of a source. -/
theorem resolve_source {rest : List UInt8} (hup : dotDot ∉ names (slash :: rest))
    (h : t.resolve cwd (slash :: rest) = some loc) : loc = location (slash :: rest) := by
  obtain ⟨-, hwalk⟩ := Option.ite_none_left_eq_some.mp h
  exact walk_eq hup hwalk

theorem dotDot_not_mem_rest {rest : List UInt8} (hup : dotDot ∉ names (slash :: rest)) :
    dotDot ∉ names rest := by
  rw [names_slash_cons] at hup
  exact fun hmem => hup (List.mem_cons_of_mem _ hmem)

theorem Kept.mkdir (h : Kept o t D paths marked d) (home : Home cwd path D t) (hp : p ∈ paths)
    {rest dir base : List UInt8} (hrest : p = slash :: rest) (hup : dotDot ∉ names p)
    (hsplit : path ++ p = dir ++ slash :: base) (hbase : slash ∉ base)
    (hlen : (path ++ p).length < maxPathLength) :
    Kept o t D paths marked (Coldtrace.mkdir o cwd d dir).2 := by
  subst hrest
  have hup' : dotDot ∉ (names rest).dropLast :=
    fun hmem => dotDot_not_mem_rest hup (List.mem_of_mem_dropLast hmem)
  obtain ⟨hbegins, hnames⟩ := destination_split hsplit hbase
  have hmade : ∀ more, more <+: (names rest).dropLast → descent more ≠ [] →
      MadeFor D paths (D ++ descent more) := by
    intro more hmore _
    refine ⟨slash :: rest, hp, descent more, ?_, rfl⟩
    rw [location, names_slash_cons, descent_nil_cons]
    exact (hmore.trans (List.dropLast_prefix _)).filter _
  have hshort : dir.length < maxPathLength := by
    rw [hsplit, List.length_append] at hlen
    omega
  have hhome := home.changes h.changes
  refine ⟨h.changes.trans (hhome.mkdir hup' hbegins hnames hshort hmade), fun hf q hq => ?_⟩
  -- no file is written
  have hdirs : Changes (MadeFor D paths) (fun _ => False) d.tree
      (Coldtrace.mkdir o cwd d dir).2.tree := hhome.mkdir hup' hbegins hnames hshort hmade
  exact hdirs.node_of_some id (h.equal hf q hq)

theorem Kept.cp (h : Kept o t D paths marked d) (home : Home cwd path D t) (hp : p ∈ paths)
    {rest : List UInt8} (hrest : p = slash :: rest) (hup : dotDot ∉ names p) {ok : Bool}
    (hcp : Cp o cwd d p (path ++ p) (some (ok, d'))) :
    Kept o t D paths (if ok then marked ++ [p] else marked) d' := by
  subst hrest
  have hhome := home.changes h.changes
  have hwriting : ∀ {loc}, d.tree.resolve cwd (path ++ slash :: rest) = some loc →
      d.tree.node loc ≠ some .directory → loc = D ++ location (slash :: rest) ∧
        Named (slash :: rest) :=
    fun hloc hdir => hhome.writing (dotDot_not_mem_rest hup) hloc hdir
  have hchanges : Changes (MadeFor D paths) (WrittenFor D paths) d.tree d'.tree := by
    refine hcp.changes fun loc hloc hdir => ?_
    obtain ⟨rfl, hnamed⟩ := hwriting hloc hdir
    exact .inr ⟨_, hp, rfl, hnamed⟩
  refine ⟨h.changes.trans hchanges, fun hf q hq => ?_⟩
  cases hcp with
  | failed htree =>
      rw [htree]
      exact h.equal hf q hq
  | @copied fsrc fdst content _ hsrc _ hloc hdir _ hnode hself hcontent =>
      obtain ⟨rfl, -⟩ := hwriting hloc hdir
      obtain rfl := resolve_source hup hsrc
      have hbytes : content = copyOf t D (slash :: rest) := by
        rw [copyOf]
        split
        next hroot => exact hself (by rw [hroot]; rfl)
        next hroot =>
          obtain ⟨ho, hout⟩ := hf.resolve_left hroot
          have hne : location (slash :: rest) ≠ D ++ location (slash :: rest) :=
            fun heq => hout _ hp (heq ▸ List.prefix_append ..)
          rw [hcontent ho hne, Tree.bytes, h.node_eq (hout _ hp), Tree.bytes]
      rw [hnode]
      split
      next heq =>
        rw [hbytes, copyOf, copyOf, List.append_cancel_left heq]
      next hother =>
        refine h.equal hf q ((List.mem_append.mp hq).resolve_right fun hmem => hother ?_)
        rw [List.mem_singleton.mp hmem]

/-- A copy without a result meets something special, which was there before. -/
theorem Kept.special (h : Kept o t D paths marked d) (home : Home cwd path D t)
    {rest : List UInt8} (hrest : p = slash :: rest) (hup : dotDot ∉ names p)
    (hcp : Cp o cwd d p (path ++ p) none) : Special t D p := by
  subst hrest
  cases hcp with
  | readsSpecial hsrc hspecial =>
      obtain rfl := resolve_source hup hsrc
      exact .inl (h.changes.special hspecial)
  | writesSpecial hloc hspecial =>
      obtain ⟨rfl, -⟩ := (home.changes h.changes).writing (dotDot_not_mem_rest hup) hloc
        (by rw [hspecial]; simp)
      exact .inr (h.changes.special hspecial)

/-- The variables and the volume after the lines with some paths. -/
structure Copying (o : FileTree.Outcomes) (t : Tree) (D : Location)
    (paths seen marked : List (List UInt8)) (st : Copies) (d : Volume) : Prop where
  kept : Kept o t D paths marked d
  unique : st.unique = joinedPaths marked
  sub : marked.Sublist seen
  found : st.ret = 0 → (∀ clock, o.read clock = none) → ∀ p ∈ seen,
    Coldtrace.found marked p = true

variable {seen : List (List UInt8)} {st st' : Copies}

/-- A path that is not marked makes the function return -1. -/
theorem Copying.failed (h : Copying o t D paths seen marked st d)
    (hkept : Kept o t D paths marked d') (hunique : st'.unique = st.unique) (hret : st'.ret = -1)
    (more : List (List UInt8)) :
    Copying o t D paths (seen ++ more) marked st' d' where
  kept := hkept
  unique := hunique.trans h.unique
  sub := h.sub.trans (List.sublist_append_left ..)
  found hzero := by
    rw [hret] at hzero
    cases hzero

theorem Copying.tick (h : Copying o t D paths seen marked st d) :
    Copying o t D paths seen marked st d.tick :=
  ⟨⟨h.kept.changes, h.kept.equal⟩, h.unique, h.sub, h.found⟩

/-- The directory for the copy of the path of a line. -/
theorem Kept.mkdir_line (h : Kept o t D paths marked d) (home : Home cwd path D t)
    {line p dir base : List UInt8} (hlen : line.length < maxLineLength)
    (hread : readPath line = some p) (hmem : p ∈ paths) (hup : dotDot ∉ names p)
    (hsplit : path ++ p = dir ++ slash :: base) (hbase : slash ∉ base) {ok : Bool} {d₁ : Volume}
    (heq : Coldtrace.mkdir o cwd d dir = (ok, d₁)) : Kept o t D paths marked d₁ := by
  obtain ⟨⟨rest, hrest⟩, hle, -⟩ := readPath_spec hread
  have hshort : (path ++ p).length < maxPathLength := by
    have hsizes : maxPathLength = 1024 ∧ defaultPathSize = 128 ∧ maxLineLength = 256 :=
      ⟨rfl, rfl, rfl⟩
    have hpath := home.short
    rw [List.length_append]
    omega
  have hkept := h.mkdir home hmem hrest hup hsplit hbase hshort
  rw [heq] at hkept
  exact hkept

/-- The copy of the path of a line. -/
theorem Kept.cp_line (h : Kept o t D paths marked d) (home : Home cwd path D t)
    {line p : List UInt8} (hread : readPath line = some p) (hmem : p ∈ paths)
    (hup : dotDot ∉ names p) {ok : Bool} {d₁ : Volume}
    (heq : Coldtrace.cp o cwd d p (path ++ p) = some (ok, d₁)) :
    Kept o t D paths (if ok then marked ++ [p] else marked) d₁ := by
  obtain ⟨⟨rest, hrest⟩, -, -⟩ := readPath_spec hread
  exact h.cp home hmem hrest hup (heq ▸ cp_spec o cwd d p (path ++ p))

/-- What the body of the loop keeps. -/
theorem Copying.line (h : Copying o t D paths seen marked st d) (home : Home cwd path D t)
    {line : List UInt8} (hlen : line.length < maxLineLength)
    (hpaths : ∀ p, readPath line = some p → p ∈ paths) (hup : ∀ p ∈ paths, dotDot ∉ names p)
    (hfit : (joinedPaths (seen ++ (readPath line).toList)).length < uniqueSize) :
    (copyLineOn o cwd path st d line = none ∧ ∃ p ∈ paths, Special t D p) ∨
      ∃ marked' st' d', Copying o t D paths (seen ++ (readPath line).toList) marked' st' d' ∧
        (copyLineOn o cwd path st d line = some (.next st', d') ∨
          copyLineOn o cwd path st d line = some (.stop st', d') ∧ st'.ret = -1) := by
  have hspec := copyLineOn_spec o cwd st d home.short hlen
  generalize hresult : copyLineOn o cwd path st d line = result at hspec
  cases hspec with
  | skipped hread =>
      rw [hread, Option.toList_none, List.append_nil]
      exact .inr ⟨marked, st, d, h, .inl rfl⟩
  | @known p hread hknown =>
      refine .inr ⟨marked, st, d, ⟨h.kept, h.unique, h.sub.trans (List.sublist_append_left ..), ?_⟩,
        .inl rfl⟩
      intro hzero ho q hq
      rw [hread, Option.toList_some, List.mem_append, List.mem_singleton] at hq
      rcases hq with hq | rfl
      · exact h.found hzero ho q hq
      · rw [Coldtrace.found, ← h.unique]
        exact hknown
  | @stopped p _ _ _ _ hread hsplit hbase hmade hunique hret =>
      have hmem := hpaths p hread
      have hkept := h.kept.mkdir_line home hlen hread hmem (hup p hmem) hsplit hbase hmade
      exact .inr ⟨marked, _, _, h.failed hkept hunique hret _, .inr ⟨rfl, hret⟩⟩
  | @stuck p dir base d₁ hread hsplit hbase hmade hnone =>
      obtain ⟨⟨rest, hrest⟩, -, -⟩ := readPath_spec hread
      have hmem := hpaths p hread
      have hkept := h.kept.mkdir_line home hlen hread hmem (hup p hmem) hsplit hbase hmade
      exact .inl ⟨rfl, p, hmem, hkept.special home hrest (hup p hmem)
        (hnone ▸ cp_spec o cwd d₁ p (path ++ p))⟩
  | @failed p _ _ _ _ _ hread hsplit hbase hmade hcopied hunique hret =>
      have hmem := hpaths p hread
      have hkept := h.kept.mkdir_line home hlen hread hmem (hup p hmem) hsplit hbase hmade
      exact .inr ⟨marked, _, _,
        h.failed (hkept.cp_line home hread hmem (hup p hmem) hcopied) hunique hret _, .inl rfl⟩
  | @copied p dir base st' d₁ d' hread hsplit hbase hmade hcopied hunique hret =>
      have hmem := hpaths p hread
      have hkept := h.kept.mkdir_line home hlen hread hmem (hup p hmem) hsplit hbase hmade
      refine .inr ⟨marked ++ [p], st', d',
        ⟨hkept.cp_line home hread hmem (hup p hmem) hcopied, ?_, ?_, ?_⟩, .inl rfl⟩
      · rw [hunique, h.unique, joinedPaths_concat]
      · rw [hread]
        exact h.sub.append_right _
      · intro hzero ho q hq
        rw [hread, Option.toList_some, List.mem_append] at hq
        rcases hq with hq | hq
        · exact search_found.mono _ _ _ (h.found (hret ▸ hzero) ho q hq)
        · exact search_found.mem _ _ (List.mem_append_right _ hq)
  | @overflow p _ hread hfull =>
      rw [hread, Option.toList_some] at hfit
      rw [h.unique, ← joinedPaths_concat] at hfull
      have hsub : (joinedPaths (marked ++ [p])).Sublist (joinedPaths (seen ++ [p])) :=
        List.Sublist.flatMap (h.sub.append_right [p]) _
      have hle := hsub.length_le
      omega

/-! ## The whole copy -/

/-- The paths of the first piece and of the rest. -/
theorem readPaths_of_fgets {stream line rest : List UInt8}
    (h : fgets maxLineLength stream = some (line, rest)) :
    readPaths stream = (readPath line).toList ++ readPaths rest := by
  rw [readPaths, pieces_of_fgets (by decide) h, List.filterMap_cons]
  cases readPath line <;> rfl

/-- The loop comes to an end, unless a path is special, and keeps what its body
keeps. -/
theorem copyLinesOn_spec (home : Home cwd path D t) (hup : ∀ p ∈ paths, dotDot ∉ names p)
    {fuel : Nat} {stream : List UInt8} (hfuel : stream.length < fuel)
    (h : Copying o t D paths seen marked st d) (hpaths : ∀ p ∈ readPaths stream, p ∈ paths)
    (hfit : (joinedPaths (seen ++ readPaths stream)).length < uniqueSize) :
    (copyLinesOn o cwd path fuel st d stream = none ∧ ∃ p ∈ paths, Special t D p) ∨
      ∃ marked' st' d', copyLinesOn o cwd path fuel st d stream = some (st', d') ∧
        Copying o t D paths (seen ++ readPaths stream) marked' st' d' := by
  induction fuel generalizing stream seen marked st d with
  | zero => exact absurd hfuel (Nat.not_lt_zero _)
  | succ fuel ih =>
      rw [copyLinesOn]
      split
      next hfails =>
        refine .inr ⟨marked, st, _, rfl, ⟨h.tick.kept, h.unique,
          h.sub.trans (List.sublist_append_left ..), fun _ ho => ?_⟩⟩
        rw [ho] at hfails
        cases hfails
      next =>
      cases hread : fgets maxLineLength stream with
      | none =>
          have hnil : stream = [] := by
            cases stream with
            | nil => rfl
            | cons c stream => cases hread
          subst hnil
          exact .inr ⟨marked, st, _, rfl, (List.append_nil seen).symm ▸ h.tick⟩
      | some read =>
          obtain ⟨line, rest⟩ := read
          have hpieces := readPaths_of_fgets hread
          have hlt := length_fgets (by decide) hread
          have hlen : line.length < maxLineLength := by
            have hle := length_line hread
            have hsize : maxLineLength = 256 := rfl
            omega
          rw [hpieces, ← List.append_assoc] at hfit ⊢
          rw [hpieces] at hpaths
          have hhere : (joinedPaths (seen ++ (readPath line).toList)).length < uniqueSize :=
            Nat.lt_of_le_of_lt (length_joinedPaths_le (List.prefix_append ..)) hfit
          obtain ⟨hnone, hspecial⟩ | ⟨marked₁, st₁, d₁, h₁, heq | ⟨heq, hret⟩⟩ :=
            h.tick.line home hlen
              (fun p hp => hpaths p (List.mem_append_left _ (by rw [hp]; simp))) hup hhere
          · dsimp only
            rw [hnone]
            exact .inl ⟨rfl, hspecial⟩
          · dsimp only
            rw [heq]
            exact ih (by omega) h₁ (fun p hp => hpaths p (List.mem_append_right _ hp)) hfit
          · dsimp only
            rw [heq]
            exact .inr ⟨marked₁, st₁, d₁, rfl, h₁.failed h₁.kept rfl hret _⟩

theorem procMaps_eq (hpath : path.length < defaultPathSize) :
    procMaps path = path ++ slash :: ascii "maps" := by
  refine List.take_of_length_le ?_
  have hsizes : maxPathLength = 1024 ∧ defaultPathSize = 128 ∧ (ascii "/maps").length = 5 :=
    ⟨rfl, rfl, rfl⟩
  rw [List.length_append]
  omega

/-- The location of the list. -/
theorem Home.resolve_maps (home : Home cwd path D t)
    (h : t.resolve cwd (procMaps path) = some loc) : loc = D ++ [ascii "maps"] := by
  obtain ⟨hne, hwalk⟩ := home.walk
  obtain ⟨-, hpart⟩ := Option.ite_none_left_eq_some.mp h
  rw [procMaps_eq home.short, ← origin_eq hne (List.prefix_append ..), names_slash,
    walk_append, hwalk, Option.bind_some] at hpart
  exact walk_eq (by decide) hpart

/-- Before the mapped files are copied, the list is. -/
theorem copyProcMaps_changes (home : Home cwd path D d.tree) {pid : Nat} {ok : Bool}
    (h : copyProcMaps o cwd pid d path = some (ok, d')) (paths : List (List UInt8)) :
    Changes (MadeFor D paths) (WrittenFor D paths) d.tree d'.tree := by
  have hmkdir : Changes (MadeFor D paths) (WrittenFor D paths) d.tree (mkdir o cwd d path).2.tree :=
    home.mkdir_self
  rw [copyProcMaps] at h
  generalize mkdir o cwd d path = made at hmkdir h
  obtain ⟨ok₁, d₁⟩ := made
  cases ok₁ with
  | false =>
      cases h
      exact hmkdir
  | true =>
      have hspec := cp_spec o cwd d₁ (kernelMaps pid) (procMaps path)
      dsimp only at h
      rw [h] at hspec
      refine hmkdir.trans (hspec.changes fun loc hloc _ => .inl ?_)
      exact (home.changes hmkdir).resolve_maps hloc

/-- What `copy_mapped_files_` keeps, if it comes to an end. -/
theorem copyMappedFilesOn_spec (o : FileTree.Outcomes) (home : Home cwd path D d.tree)
    (hup : ∀ p ∈ readPaths (d.tree.bytes (D ++ [ascii "maps"])), dotDot ∉ names p)
    (hfit : (joinedPaths (readPaths (d.tree.bytes (D ++ [ascii "maps"])))).length < uniqueSize) :
    (copyMappedFilesOn o cwd d path = none ∧ (d.tree.node (D ++ [ascii "maps"]) = some .special ∨
        ∃ p ∈ readPaths (d.tree.bytes (D ++ [ascii "maps"])), Special d.tree D p)) ∨
      ∃ marked st d', copyMappedFilesOn o cwd d path = some (st, d') ∧
        Copying o d.tree D (readPaths (d.tree.bytes (D ++ [ascii "maps"])))
          (readPaths (d.tree.bytes (D ++ [ascii "maps"]))) marked st d' := by
  have htree : (d.openRead o cwd (procMaps path)).2.tree = d.tree := Volume.openRead_tree
  have hsome := fun loc => @Volume.openRead_some o cwd loc d (procMaps path)
  rw [copyMappedFilesOn]
  generalize d.openRead o cwd (procMaps path) = opened at htree hsome
  obtain ⟨file, d₁⟩ := opened
  have hkept : Kept o d.tree D (readPaths (d.tree.bytes (D ++ [ascii "maps"]))) [] d₁ :=
    ⟨htree ▸ .refl _, by simp⟩
  cases file with
  | none => exact .inr ⟨[], _, d₁, rfl, hkept, rfl, List.nil_sublist _, by simp⟩
  | some file =>
      obtain rfl := home.resolve_maps (hsome file rfl).1
      dsimp only at htree ⊢
      rw [htree]
      split
      next hspecial => exact .inl ⟨rfl, .inl hspecial⟩
      next =>
        have hstart : Copying o d.tree D (readPaths (d.tree.bytes (D ++ [ascii "maps"]))) [] [] {}
            d₁ := ⟨hkept, rfl, List.nil_sublist _, by simp⟩
        exact (copyLinesOn_spec home hup (Nat.lt_succ_self _) hstart (fun _ hp => hp) hfit).imp_left
          fun hnone => ⟨hnone.1, .inr hnone.2⟩

/-- A file that is written does not have the extension of traces. -/
theorem WrittenFor.not_trace {content : List UInt8} {dir : Location} {name : Name}
    (h : WrittenFor D (readPaths content) (dir ++ [name])) :
    hasExt name (ascii ".bin") = false := by
  rcases h with heq | ⟨p, hp, heq, ns, last, hnames, hstay⟩
  · obtain rfl : name = ascii "maps" := (List.append_inj_right' heq rfl |> List.singleton_inj.mp)
    decide
  · rw [location, hnames, descent_append, descent_singleton hstay, ← List.append_assoc] at heq
    obtain rfl : name = last := List.singleton_inj.mp (List.append_inj_right' heq rfl)
    obtain ⟨piece, -, hread⟩ := List.mem_filterMap.mp hp
    by_contra hext
    rw [Bool.not_eq_false, hasExt_iff] at hext
    have hbin := hasExt_iff.mpr (hext.trans (suffix_of_names hnames))
    rw [(readPath_spec hread).2.2] at hbin
    cases hbin

/-- A name with the extension of traces stands for what it stood for, or for a new
directory. -/
theorem node_of_trace {content : List UInt8} {t' : Tree}
    (h : Changes (MadeFor D (readPaths content)) (WrittenFor D (readPaths content)) t t')
    (dir : Location) {name : Name} (hext : hasExt name (ascii ".bin") = true) :
    t'.node (dir ++ [name]) = t.node (dir ++ [name]) ∨
      (t.node (dir ++ [name]) = none ∧ t'.node (dir ++ [name]) = some .directory) ∧
        MadeFor D (readPaths content) (dir ++ [name]) := by
  have hone := h (dir ++ [name])
  have hnot : ¬ WrittenFor D (readPaths content) (dir ++ [name]) := by
    intro hw
    rw [hw.not_trace] at hext
    cases hext
  generalize t.node (dir ++ [name]) = n, t'.node (dir ++ [name]) = n' at hone
  cases hone with
  | same => exact .inl rfl
  | made hm => exact .inr ⟨⟨rfl, rfl⟩, hm⟩
  | created _ hw => exact absurd hw hnot
  | rewritten _ _ hw => exact absurd hw hnot

theorem names_kernelMaps (pid : Nat) :
    names (kernelMaps pid) = [[], ascii "proc", Decimal.decimal pid, ascii "maps"] := by
  have hslash : slash ∉ Decimal.decimal pid :=
    fun hmem => absurd (Decimal.isDigit_of_mem_decimal hmem) (by decide)
  have heq : kernelMaps pid =
      ascii "/proc" ++ slash :: (Decimal.decimal pid ++ slash :: ascii "maps") := by
    rw [kernelMaps, List.append_assoc]
    rfl
  rw [heq, names_slash, names_slash, names_eq_singleton hslash]
  rfl

theorem dotDot_not_mem_kernelMaps (pid : Nat) : dotDot ∉ names (kernelMaps pid) := by
  have hdigits : Decimal.decimal pid ≠ dotDot := by
    intro heq
    have hmem : (46 : UInt8) ∈ Decimal.decimal pid := by
      rw [heq]
      decide
    exact absurd (Decimal.isDigit_of_mem_decimal hmem) (by decide)
  rw [names_kernelMaps]
  simp only [List.mem_cons, List.not_mem_nil, or_false, not_or]
  exact ⟨by decide, by decide, hdigits.symm, by decide⟩

theorem resolve_kernelMaps {pid : Nat} (h : t.resolve cwd (kernelMaps pid) = some loc) :
    loc = location (kernelMaps pid) := by
  obtain ⟨-, hwalk⟩ := Option.ite_none_left_eq_some.mp h
  exact walk_eq (dotDot_not_mem_kernelMaps pid) hwalk

/-- The list is copied or not, unless one of the two lists is special. -/
theorem copyProcMaps_none (home : Home cwd path D d.tree) {pid : Nat}
    (h : copyProcMaps o cwd pid d path = none) :
    d.tree.node (location (kernelMaps pid)) = some .special ∨
      d.tree.node (D ++ [ascii "maps"]) = some .special := by
  have hmkdir : Changes (MadeFor D []) (WrittenFor D []) d.tree (mkdir o cwd d path).2.tree :=
    home.mkdir_self
  rw [copyProcMaps] at h
  generalize mkdir o cwd d path = made at hmkdir h
  obtain ⟨ok, d₁⟩ := made
  cases ok with
  | false => cases h
  | true =>
      have hspec := cp_spec o cwd d₁ (kernelMaps pid) (procMaps path)
      dsimp only at h
      rw [h] at hspec
      cases hspec with
      | readsSpecial hsrc hspecial =>
          obtain rfl := resolve_kernelMaps hsrc
          exact .inl (hmkdir.special hspecial)
      | writesSpecial hloc hspecial =>
          obtain rfl := (home.changes hmkdir).resolve_maps hloc
          exact .inr (hmkdir.special hspecial)

/-- The list as `copy_mapped_files_` finds it. -/
def listedIn (o : FileTree.Outcomes) (cwd D : Location) (pid : Nat) (d : Volume)
    (path : List UInt8) : List UInt8 :=
  match copyProcMaps o cwd pid d path with
  | none => []
  | some (_, d) => d.tree.bytes (D ++ [ascii "maps"])

/-- What `copy_maps_and_mapped_files_` changes, if it comes to an end. -/
theorem copyMapsAndMappedFiles_changes (o : FileTree.Outcomes) (home : Home cwd path D d.tree)
    (pid : Nat) (hup : ∀ p ∈ readPaths (listedIn o cwd D pid d path), dotDot ∉ names p)
    (hfit : (joinedPaths (readPaths (listedIn o cwd D pid d path))).length < uniqueSize) :
    (copyMapsAndMappedFiles o cwd pid d path = none ∧
        (d.tree.node (location (kernelMaps pid)) = some .special ∨
          d.tree.node (D ++ [ascii "maps"]) = some .special ∨
          ∃ p ∈ readPaths (listedIn o cwd D pid d path), Special d.tree D p)) ∨
      ∃ d', copyMapsAndMappedFiles o cwd pid d path = some d' ∧
        Changes (MadeFor D (readPaths (listedIn o cwd D pid d path)))
          (WrittenFor D (readPaths (listedIn o cwd D pid d path))) d.tree d'.tree := by
  rw [copyMapsAndMappedFiles, if_neg home.walk.1]
  rw [listedIn] at hup hfit ⊢
  cases hmaps : copyProcMaps o cwd pid d path with
  | none => exact .inl ⟨rfl, (copyProcMaps_none home hmaps).imp_right .inl⟩
  | some result =>
      obtain ⟨ok, d₁⟩ := result
      rw [hmaps] at hup hfit
      dsimp only at hup hfit ⊢
      have hfirst := copyProcMaps_changes home hmaps
        (readPaths (d₁.tree.bytes (D ++ [ascii "maps"])))
      obtain ⟨hnone, hspecial⟩ | ⟨marked, st, d', heq, hcopying⟩ :=
        copyMappedFilesOn_spec o (home.changes hfirst) hup hfit
      · rw [hnone]
        refine .inl ⟨rfl, .inr (hspecial.imp hfirst.special ?_)⟩
        rintro ⟨p, hp, hsp⟩
        exact ⟨p, hp, hsp.imp hfirst.special hfirst.special⟩
      · rw [heq]
        exact .inr ⟨d', rfl, hfirst.trans hcopying.kept.changes⟩

end

/-- The copies are made in the directory, whatever fails, and do not disturb the
traces in it.  Nothing outside of the directory changes.  In it, nothing changes but
the list and what is on the way to the paths of the list.  A name with the extension
of traces stands for what it stood for, or for a new directory. -/
theorem copies_confined (o : FileTree.Outcomes) (cwd D : Location) (pid : Nat) (d : Volume)
    (path : List UInt8) (home : Home cwd path D d.tree)
    (hkernel : d.tree.node (location (kernelMaps pid)) ≠ some .special)
    (hmaps : d.tree.node (D ++ [ascii "maps"]) ≠ some .special)
    (hpaths : Copyable d.tree D (readPaths (listedIn o cwd D pid d path))) :
    ∃ d', copyMapsAndMappedFiles o cwd pid d path = some d' ∧
      (∀ loc, ¬ D <+: loc → d'.tree.node loc = d.tree.node loc) ∧
      (∀ loc, d'.tree.node loc ≠ d.tree.node loc → loc = D ++ [ascii "maps"] ∨
        ∃ p ∈ readPaths (listedIn o cwd D pid d path), loc <+: D ++ location p) ∧
      ∀ dir name, hasExt name (ascii ".bin") = true →
        d'.tree.node (dir ++ [name]) = d.tree.node (dir ++ [name]) ∨
          d.tree.node (dir ++ [name]) = none ∧ d'.tree.node (dir ++ [name]) = some .directory := by
  obtain ⟨-, hspecial⟩ | ⟨d', heq, hchanges⟩ :=
    copyMapsAndMappedFiles_changes o home pid hpaths.up hpaths.fit
  · rcases hspecial with hspecial | hspecial | ⟨p, hp, hspecial⟩
    · exact absurd hspecial hkernel
    · exact absurd hspecial hmaps
    · exact absurd hspecial (hpaths.plain p hp)
  refine ⟨d', heq, fun loc hout => ?_, fun loc hchanged => ?_, fun dir name hext => ?_⟩
  · exact hchanges.node_eq (fun hm => hout hm.below) fun hw => hout hw.below
  · by_contra hnot
    refine hchanged (hchanges.node_eq (fun hm => hnot ?_) fun hw => hnot ?_)
    · obtain ⟨p, hp, more, hmore, rfl⟩ := hm
      exact .inr ⟨p, hp, (List.prefix_append_right_inj D).mpr hmore⟩
    · exact hw.imp_right fun ⟨p, hp, hloc, _⟩ => ⟨p, hp, hloc ▸ List.prefix_refl _⟩
  · exact (node_of_trace hchanges dir hext).imp_right And.left

/-- A volume with a library, the list of a process that maps it, and a directory. -/
def libraryVolume : Volume where
  tree := [([ascii "t"], Node.directory), ([ascii "a.so"], .file [1, 2]),
      ([ascii "proc"], .directory), ([ascii "proc", ascii "7"], .directory),
      ([ascii "proc", ascii "7", ascii "maps"], .file (ascii "r /a.so\n")),
      ([ascii "maps"], .file (ascii "r /a.so\n"))].foldl
    (fun t entry => (t.put entry.1 entry.2).getD t) .bare

/-- The library can be copied, to any directory that has nothing of its name. -/
theorem copyable_library {D : Location}
    (h : libraryVolume.tree.node (D ++ [ascii "a.so"]) ≠ some .special) :
    Copyable libraryVolume.tree D [ascii "/a.so"] where
  up := by decide
  plain := by
    intro p hp
    rw [List.mem_singleton.mp hp]
    rintro (hsource | hdest)
    · exact absurd hsource (by decide)
    · exact h hdest
  other := by decide
  fit := by decide

theorem copies_confined_library :
    ∃ d', copyMapsAndMappedFiles {} [] 7 libraryVolume (ascii "/t") = some d' ∧
      d'.tree.node [ascii "a.so"] = some (.file [1, 2]) := by
  have hlist : listedIn {} [] [ascii "t"] 7 libraryVolume (ascii "/t") =
      ascii "r /a.so\n" := by decide
  have hpaths : readPaths (listedIn {} [] [ascii "t"] 7 libraryVolume (ascii "/t")) =
      [ascii "/a.so"] := by
    rw [hlist]
    decide
  obtain ⟨d', heq, hout, -⟩ := copies_confined {} [] [ascii "t"] 7 libraryVolume (ascii "/t")
    ⟨by decide, by decide, by decide⟩ (by decide) (by decide)
    (by rw [hpaths]; exact copyable_library (by decide))
  refine ⟨d', heq, ?_⟩
  rw [hout _ (by decide)]
  decide

end Coldtrace
