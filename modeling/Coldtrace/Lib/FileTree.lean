import Mathlib.Data.List.Basic
import Mathlib.Data.List.DropRight
import Mathlib.Data.List.Infix
import Mathlib.Tactic.Common

/-!
# Trees of files

A tree maps locations to what is there.  A location is the list of the names from
the root on.  The root is a directory, and so is whatever has something in it: a
`Tree` carries both facts.  So a tree changes in one way only: something is put
into a `Slot`, a place in a directory that is not itself a directory.

A path is resolved name by name (`walk`), and each name needs a directory to be
looked up in.  An empty name and `.` stay there, and `..` goes up.  There are no
links, neither symbolic nor hard ones.  Where `..` does not occur, the location of a
path can be read off it (`walk_eq`).

A `Volume` is a tree with a clock.  Every system call takes one tick, and `Outcomes`
says for each tick whether the call fails, or how much of it is done.  What a
special file gives to a reader is not said, so whoever opens one has no result
here.  `Changes` bounds what a sequence of
calls does: directories are made only at some locations, files are written only at
some others, and nothing else happens.
-/

namespace FileTree

abbrev Name := List UInt8

abbrev Location := List Name

/-- What is at a location. -/
inductive Node where
  /-- A regular file. -/
  | file (content : List UInt8)
  | directory
  /-- Anything else: a device, which may have no end, or a pipe, which may block. -/
  | special
deriving DecidableEq, Repr

structure Tree where
  node : Location → Option Node
  root : node [] = some .directory
  parent : ∀ {dir : Location} {name : Name}, (node (dir ++ [name])).isSome = true →
    node dir = some .directory

/-- A tree with nothing but the root. -/
def Tree.bare : Tree where
  node loc := if loc = [] then some .directory else none
  root := rfl
  parent {dir name} h := by simp at h

/-- A place in a directory where no directory is. -/
structure Slot (t : Tree) where
  dir : Location
  name : Name
  inside : t.node dir = some .directory
  free : t.node (dir ++ [name]) ≠ some .directory

namespace Tree

variable {t t' t'' : Tree} {loc : Location} {n : Node}

/-- The tree after something is put into a slot. -/
def fill (t : Tree) (s : Slot t) (n : Node) : Tree where
  node loc := if loc = s.dir ++ [s.name] then some n else t.node loc
  root := by
    rw [if_neg (by simp)]
    exact t.root
  parent {dir name} h := by
    have hdir : dir ≠ s.dir ++ [s.name] → t.node dir = some .directory →
        (if dir = s.dir ++ [s.name] then some n else t.node dir) = some .directory :=
      fun hne hd => (if_neg hne).trans hd
    split at h
    next heq =>
      obtain ⟨rfl, rfl⟩ : dir = s.dir ∧ name = s.name := by simpa using heq
      exact hdir (by simp) s.inside
    next =>
      have hold := t.parent h
      refine hdir (fun heq => s.free ?_) hold
      rw [← heq, hold]

/-- The slot at a location. -/
def slot? (t : Tree) (loc : Location) : Option (Slot t) :=
  match loc.getLast? with
  | none => none
  | some name =>
      if h : t.node loc.dropLast = some .directory ∧
          t.node (loc.dropLast ++ [name]) ≠ some .directory then
        some ⟨loc.dropLast, name, h.1, h.2⟩
      else none

/-- The tree with something new at a location, where that can be. -/
def put (t : Tree) (loc : Location) (n : Node) : Option Tree := (t.slot? loc).map (t.fill · n)

theorem put_eq_some (h : t.put loc n = some t') :
    (∀ loc', t'.node loc' = if loc' = loc then some n else t.node loc') ∧
      t.node loc ≠ some .directory := by
  obtain ⟨s, hs, rfl⟩ := Option.map_eq_some_iff.mp h
  have hloc : s.dir ++ [s.name] = loc := by
    rw [slot?] at hs
    split at hs
    next => cases hs
    next name hlast =>
      split at hs
      next =>
        obtain rfl := Option.some.inj hs
        exact List.dropLast_append_getLast? name hlast
      next => cases hs
  subst hloc
  exact ⟨fun _ => rfl, s.free⟩

/-- What is there can be replaced, if it is not a directory. -/
theorem put_of_node {m : Node} (h : t.node loc = some m) (hm : m ≠ .directory) (n : Node) :
    ∃ t', t.put loc n = some t' := by
  rcases List.eq_nil_or_concat' loc with rfl | ⟨dir, name, rfl⟩
  · rw [t.root] at h
    exact absurd (Option.some.inj h).symm hm
  · have hinside : t.node dir = some .directory := t.parent (by rw [h]; rfl)
    have hfree : t.node (dir ++ [name]) ≠ some .directory := by
      rw [h]
      exact fun heq => hm (Option.some.inj heq)
    have hslot : t.slot? (dir ++ [name]) = some ⟨dir, name, hinside, hfree⟩ := by
      simp only [slot?, List.getLast?_concat, List.dropLast_concat]
      exact dif_pos ⟨hinside, hfree⟩
    exact ⟨_, by rw [put, hslot]; rfl⟩

/-- The bytes of a regular file.  A directory gives none. -/
def bytes (t : Tree) (loc : Location) : List UInt8 :=
  match t.node loc with
  | some (.file content) => content
  | _ => []

end Tree

/-! ## Paths -/

def slash : UInt8 := 47

def dot : Name := [46]

def dotDot : Name := [46, 46]

/-- The names of a path. -/
def names (path : List UInt8) : List Name := path.splitOn slash

theorem names_append (path rest : List UInt8) :
    names (path ++ slash :: rest) = names path ++ names rest :=
  List.splitOn_append_cons_self ..

theorem names_ne_nil (path : List UInt8) : names path ≠ [] := List.splitOn_ne_nil _ _

theorem names_eq_singleton {path : List UInt8} (h : slash ∉ path) : names path = [path] :=
  List.splitOn_eq_singleton h

/-- A path ends with its last name. -/
theorem suffix_of_names {path : List UInt8} {ns : List Name} {last : Name}
    (h : names path = ns ++ [last]) : last <:+ path := by
  have hjoin : [slash].intercalate (names path) = path := List.intercalate_splitOn slash
  rw [h] at hjoin
  rw [← hjoin]
  clear h hjoin
  induction ns with
  | nil => simp
  | cons name ns ih =>
      rw [List.cons_append, List.intercalate_cons_of_ne_nil (by simp)]
      exact ih.trans (List.suffix_append ..)

/-- A name that stays in the directory. -/
def Stays (name : Name) : Prop := name = [] ∨ name = dot

instance (name : Name) : Decidable (Stays name) := inferInstanceAs (Decidable (_ ∨ _))

def Tree.walk (t : Tree) : Location → List Name → Option Location
  | loc, [] => some loc
  | loc, name :: names =>
      if t.node loc ≠ some .directory then none
      else if Stays name then t.walk loc names
      else if name = dotDot then t.walk loc.dropLast names
      else t.walk (loc ++ [name]) names

/-- Where a path starts. -/
def origin (cwd : Location) (path : List UInt8) : Location :=
  if path.head? = some slash then [] else cwd

/-- The location of a path, for opening it. -/
def Tree.resolve (t : Tree) (cwd : Location) (path : List UInt8) : Option Location :=
  if path = [] then none else t.walk (origin cwd path) (names path)

/-- The location of a path, for making a directory there: slashes at the end do
not count. -/
def Tree.creating (t : Tree) (cwd : Location) (path : List UInt8) : Option Location :=
  if path = [] then none else t.walk (origin cwd path) ((names path).rdropWhile (· = []))

/-- The location of the names, where `..` is not among them. -/
def descent (ns : List Name) : Location := ns.filter fun name => ¬ Stays name

@[simp] theorem descent_nil_cons (ns : List Name) : descent ([] :: ns) = descent ns :=
  List.filter_cons_of_neg (by simp [Stays])

@[simp] theorem descent_append (ns ns' : List Name) :
    descent (ns ++ ns') = descent ns ++ descent ns' :=
  List.filter_append ..

theorem descent_singleton {name : Name} (h : ¬ Stays name) : descent [name] = [name] :=
  List.filter_cons_of_pos (by simpa using h)

/-- The location of an absolute path without `..`. -/
def location (path : List UInt8) : Location := descent (names path)

theorem origin_eq {cwd : Location} {path path' : List UInt8} (hne : path ≠ [])
    (h : path <+: path') : origin cwd path = origin cwd path' := by
  obtain ⟨rest, rfl⟩ := h
  obtain ⟨c, path, rfl⟩ := List.exists_cons_of_ne_nil hne
  rfl

section

variable {t t' : Tree} {loc start dir : Location} {ns ns' : List Name}

theorem walk_append (t : Tree) (start : Location) (ns ns' : List Name) :
    t.walk start (ns ++ ns') = (t.walk start ns).bind fun loc => t.walk loc ns' := by
  induction ns generalizing start with
  | nil => rfl
  | cons name ns ih =>
      rw [List.cons_append, Tree.walk, Tree.walk]
      split
      next => rfl
      next =>
        split
        next => exact ih _
        next =>
          split
          next => exact ih _
          next => exact ih _

/-- More directories do not change where a path leads. -/
theorem walk_mono (hdirs : ∀ loc, t.node loc = some .directory → t'.node loc = some .directory)
    (h : t.walk start ns = some loc) : t'.walk start ns = some loc := by
  induction ns generalizing start with
  | nil => exact h
  | cons name ns ih =>
      rw [Tree.walk] at h ⊢
      split at h
      next => cases h
      next hdir =>
        rw [not_not] at hdir
        rw [if_neg (not_not.mpr (hdirs _ hdir))]
        split at h
        next hstay =>
          rw [if_pos hstay]
          exact ih h
        next hstay =>
          rw [if_neg hstay]
          split at h
          next hup =>
            rw [if_pos hup]
            exact ih h
          next hup =>
            rw [if_neg hup]
            exact ih h

/-- The first name is looked up in a directory. -/
theorem walk_cons_dir {name : Name} (h : t.walk start (name :: ns) = some loc) :
    t.node start = some .directory := by
  rw [Tree.walk] at h
  split at h
  next => cases h
  next hdir => exact not_not.mp hdir

theorem walk_eq (hup : dotDot ∉ ns) (h : t.walk start ns = some loc) :
    loc = start ++ descent ns := by
  induction ns generalizing start with
  | nil => simpa [Tree.walk, descent] using h.symm
  | cons name ns ih =>
      rw [List.mem_cons, not_or] at hup
      have hdir := walk_cons_dir h
      rw [Tree.walk, if_neg (not_not.mpr hdir), if_neg (Ne.symm hup.1)] at h
      split at h
      next hstay => simpa [descent, hstay] using ih hup.2 h
      next hstay => simpa [descent, hstay] using ih hup.2 h

/-- What is not a directory has the last name of its path. -/
theorem walk_last {last : Name} (hup : dotDot ∉ ns ++ [last])
    (h : t.walk start (ns ++ [last]) = some loc) (hnot : t.node loc ≠ some .directory) :
    ¬ Stays last ∧ loc = start ++ descent ns ++ [last] := by
  rw [walk_append, Option.bind_eq_some_iff] at h
  obtain ⟨mid, hmid, hlast⟩ := h
  rw [List.mem_append, not_or, List.mem_singleton] at hup
  have hdir := walk_cons_dir hlast
  rw [Tree.walk, if_neg (not_not.mpr hdir), if_neg (Ne.symm hup.2)] at hlast
  split at hlast
  next =>
    obtain rfl := Option.some.inj hlast
    exact absurd hdir hnot
  next hstay =>
    obtain rfl := Option.some.inj hlast
    rw [walk_eq hup.1 hmid]
    exact ⟨hstay, rfl⟩

/-- On the way to a directory there are directories. -/
theorem walk_on_way {rest : List Name} (hwalk : t.walk start ns = some loc)
    (hdir : t.walk start (ns ++ rest) = some dir) (hd : t.node dir = some .directory) :
    t.node loc = some .directory := by
  rw [walk_append, hwalk, Option.bind_some] at hdir
  cases rest with
  | nil =>
      obtain rfl := Option.some.inj hdir
      exact hd
  | cons name rest => exact walk_cons_dir hdir

/-- A part of a path that goes through a directory leads to a directory on the way
there, or below it. -/
theorem walk_part {part : List Name} (hdir : t.walk start ns = some dir)
    (hd : t.node dir = some .directory) (hup : dotDot ∉ ns') (hpart : part <+: ns ++ ns')
    (h : t.walk start part = some loc) :
    t.node loc = some .directory ∨ ∃ more, more <+: ns' ∧ loc = dir ++ descent more := by
  rcases List.prefix_or_prefix_of_prefix hpart (List.prefix_append ns ns') with
    ⟨rest, rfl⟩ | ⟨more, rfl⟩
  · exact .inl (walk_on_way h hdir hd)
  · have hmore : more <+: ns' := (List.prefix_append_right_inj ns).mp hpart
    rw [walk_append, hdir, Option.bind_some] at h
    exact .inr ⟨more, hmore, walk_eq (fun hmem => hup (hmore.subset hmem)) h⟩

end

/-! ## What changes -/

/-- A directory is made where nothing was, or a file is written. -/
inductive NodeChange (made written : Prop) : Option Node → Option Node → Prop where
  | same (n : Option Node) : NodeChange made written n n
  | made : made → NodeChange made written none (some .directory)
  | created (content : List UInt8) : written → NodeChange made written none (some (.file content))
  | rewritten (content content' : List UInt8) : written →
      NodeChange made written (some (.file content)) (some (.file content'))

/-- Directories are made and files are written at some locations only. -/
def Changes (made written : Location → Prop) (t t' : Tree) : Prop :=
  ∀ loc, NodeChange (made loc) (written loc) (t.node loc) (t'.node loc)

namespace Changes

variable {made written : Location → Prop} {t t' t'' : Tree} {loc : Location}

theorem refl (t : Tree) : Changes made written t t := fun _ => .same _

theorem trans (h : Changes made written t t') (h' : Changes made written t' t'') :
    Changes made written t t'' := by
  intro loc
  have hfirst := h loc
  have hsecond := h' loc
  generalize t.node loc = n, t'.node loc = n', t''.node loc = n'' at hfirst hsecond
  cases hfirst with
  | same => exact hsecond
  | made hm =>
      cases hsecond with
      | same => exact .made hm
  | created content hw =>
      cases hsecond with
      | same => exact .created content hw
      | rewritten _ content' _ => exact .created content' hw
  | rewritten content _ hw =>
      cases hsecond with
      | same => exact .rewritten _ _ hw
      | rewritten _ content' _ => exact .rewritten _ _ hw

/-- Directories stay. -/
theorem directory (h : Changes made written t t') (hdir : t.node loc = some .directory) :
    t'.node loc = some .directory := by
  have hone := h loc
  rw [hdir] at hone
  generalize t'.node loc = n' at hone
  cases hone with
  | same => rfl

theorem node_eq (h : Changes made written t t') (hm : ¬ made loc) (hw : ¬ written loc) :
    t'.node loc = t.node loc := by
  have hone := h loc
  generalize t.node loc = n, t'.node loc = n' at hone
  cases hone with
  | same => rfl
  | made hmade => exact absurd hmade hm
  | created _ hwritten => exact absurd hwritten hw
  | rewritten _ _ hwritten => exact absurd hwritten hw

theorem node_of_some (h : Changes made written t t') (hw : ¬ written loc) {n : Node}
    (hn : t.node loc = some n) : t'.node loc = some n := by
  have hone := h loc
  rw [hn] at hone
  generalize t'.node loc = n' at hone
  cases hone with
  | same => rfl
  | rewritten _ _ hwritten => exact absurd hwritten hw

/-- Nothing becomes special. -/
theorem special (h : Changes made written t t') (hn : t'.node loc = some .special) :
    t.node loc = some .special := by
  have hone := h loc
  rw [hn] at hone
  generalize t.node loc = n at hone
  cases hone with
  | same => rfl

theorem walk (h : Changes made written t t') {start : Location} {ns : List Name}
    (hwalk : t.walk start ns = some loc) : t'.walk start ns = some loc :=
  walk_mono (fun _ => h.directory) hwalk

theorem resolve (h : Changes made written t t') {cwd : Location} {path : List UInt8}
    (hpath : t.resolve cwd path = some loc) : t'.resolve cwd path = some loc := by
  rw [Tree.resolve] at hpath ⊢
  split at hpath
  next => cases hpath
  next hne =>
    rw [if_neg hne]
    exact h.walk hpath

theorem put_directory (hput : t.put loc .directory = some t') (hnone : t.node loc = none)
    (hm : made loc) : Changes made written t t' := by
  intro loc'
  rw [(Tree.put_eq_some hput).1]
  split
  next heq =>
    rw [heq, hnone]
    exact .made hm
  next => exact .same _

theorem write {content : List UInt8}
    (hnode : ∀ loc', t'.node loc' = if loc' = loc then some (.file content) else t.node loc')
    (hdir : t.node loc ≠ some .directory) (hspecial : t.node loc ≠ some .special)
    (hw : written loc) : Changes made written t t' := by
  intro loc'
  rw [hnode]
  split
  next heq =>
    rw [heq]
    match hn : t.node loc with
    | none => exact .created content hw
    | some (.file old) => exact .rewritten old content hw
    | some .directory => exact absurd hn hdir
    | some .special => exact absurd hn hspecial
  next => exact .same _

end Changes

/-! ## System calls -/

/-- Whether the call at a tick fails for a reason that is not in the tree. -/
structure Outcomes where
  mkdir : Nat → Bool := fun _ => true
  openRead : Nat → Bool := fun _ => true
  openWrite : Nat → Bool := fun _ => true
  /-- How many bytes a read gives, where it fails before it has all of them. -/
  read : Nat → Option Nat := fun _ => none
  /-- How many of the bytes reach the file, where not all of them do. -/
  write : Nat → Option Nat := fun _ => none

/-- The bytes up to the given number, or all of them. -/
def upToPart (bytes : List UInt8) : Option Nat → List UInt8
  | none => bytes
  | some n => bytes.take n

/-- All bytes are read and written. -/
structure Outcomes.Whole (o : Outcomes) : Prop where
  read : ∀ clock, o.read clock = none
  write : ∀ clock, o.write clock = none

theorem length_upToPart_le (bytes : List UInt8) (n : Option Nat) :
    (upToPart bytes n).length ≤ bytes.length := by
  cases n with
  | none => exact Nat.le_refl _
  | some n => exact List.length_take_le' ..

structure Volume where
  tree : Tree
  clock : Nat := 0

namespace Volume

def turn (d : Volume) (t : Tree) : Volume := ⟨t, d.clock + 1⟩

/-- A call that leaves the tree. -/
def tick (d : Volume) : Volume := d.turn d.tree

@[simp] theorem tick_tree (d : Volume) : d.tick.tree = d.tree := rfl

/-- `mkdir`.  That something is already there counts as success. -/
def mkdir (o : Outcomes) (cwd : Location) (d : Volume) (path : List UInt8) : Bool × Volume :=
  if !o.mkdir d.clock then (false, d.tick)
  else
    match d.tree.creating cwd path with
    | none => (false, d.tick)
    | some loc =>
        if (d.tree.node loc).isSome then (true, d.tick)
        else
          match d.tree.put loc .directory with
          | none => (false, d.tick)
          | some t => (true, d.turn t)

/-- `fopen` with `"r"`.  A directory can be opened. -/
def openRead (o : Outcomes) (cwd : Location) (d : Volume) (path : List UInt8) :
    Option Location × Volume :=
  if !o.openRead d.clock then (none, d.tick)
  else
    match d.tree.resolve cwd path with
    | none => (none, d.tick)
    | some loc => (if (d.tree.node loc).isSome then some loc else none, d.tick)

/-- `fopen` with `"w"`.  A file is emptied or created. -/
def openWrite (o : Outcomes) (cwd : Location) (d : Volume) (path : List UInt8) :
    Option Location × Volume :=
  if !o.openWrite d.clock then (none, d.tick)
  else
    match d.tree.resolve cwd path with
    | none => (none, d.tick)
    | some loc =>
        if d.tree.node loc = some .special then (some loc, d.tick)
        else
          match d.tree.put loc (.file []) with
          | none => (none, d.tick)
          | some t => (some loc, d.turn t)

/-- `fread` from an open file, from an offset on.  No bytes are the end of the file
or a failure. -/
def read (o : Outcomes) (d : Volume) (loc : Location) (offset size : Nat) :
    List UInt8 × Volume :=
  (upToPart (((d.tree.bytes loc).drop offset).take size) (o.read d.clock), d.tick)

/-- `fwrite` to an open file, up to what reaches the file. -/
def append (o : Outcomes) (d : Volume) (loc : Location) (bytes : List UInt8) : Volume :=
  match d.tree.node loc with
  | some (.file content) =>
      match d.tree.put loc (.file (content ++ upToPart bytes (o.write d.clock))) with
      | none => d.tick
      | some t => d.turn t
  | _ => d.tick

section

variable {made written : Location → Prop} {o : Outcomes} {cwd loc : Location} {d d' : Volume}
  {path bytes : List UInt8}

theorem mkdir_changes (hmade : ∀ loc, d.tree.creating cwd path = some loc →
      d.tree.node loc = none → made loc) :
    Changes made written d.tree (d.mkdir o cwd path).2.tree := by
  rw [mkdir]
  split
  next => exact .refl _
  next =>
    split
    next => exact .refl _
    next loc hloc =>
      split
      next => exact .refl _
      next hnone =>
        rw [Bool.not_eq_true, Option.isSome_eq_false_iff, Option.isNone_iff_eq_none] at hnone
        split
        next => exact .refl _
        next t hput => exact .put_directory hput hnone (hmade loc hloc hnone)

@[simp] theorem openRead_tree : (d.openRead o cwd path).2.tree = d.tree := by
  rw [openRead]
  split
  next => rfl
  next =>
    split
    next => rfl
    next => rfl

theorem openRead_some (h : (d.openRead o cwd path).1 = some loc) :
    d.tree.resolve cwd path = some loc ∧ (d.tree.node loc).isSome = true := by
  rw [openRead] at h
  split at h
  next => cases h
  next =>
    split at h
    next => cases h
    next loc' hloc =>
      obtain ⟨hsome, heq⟩ := Option.ite_none_right_eq_some.mp h
      obtain rfl := Option.some.inj heq
      exact ⟨hloc, hsome⟩

/-- How `fopen` with `"w"` ends. -/
inductive Opened (d : Volume) (cwd : Location) (path : List UInt8) :
    Option Location × Volume → Prop where
  | failed {d' : Volume} : d'.tree = d.tree → Opened d cwd path (none, d')
  | special {loc : Location} {d' : Volume} : d.tree.resolve cwd path = some loc →
      d.tree.node loc = some .special → d'.tree = d.tree → Opened d cwd path (some loc, d')
  | file {loc : Location} {d' : Volume} : d.tree.resolve cwd path = some loc →
      d.tree.node loc ≠ some .directory → d.tree.node loc ≠ some .special →
      (∀ loc', d'.tree.node loc' = if loc' = loc then some (.file []) else d.tree.node loc') →
      Opened d cwd path (some loc, d')

theorem openWrite_spec (o : Outcomes) (cwd : Location) (d : Volume) (path : List UInt8) :
    Opened d cwd path (d.openWrite o cwd path) := by
  rw [openWrite]
  split
  next => exact .failed rfl
  next =>
    split
    next => exact .failed rfl
    next loc hloc =>
      split
      next hspecial => exact .special hloc hspecial rfl
      next hspecial =>
        split
        next => exact .failed rfl
        next t hput =>
          obtain ⟨hnode, hfree⟩ := Tree.put_eq_some hput
          exact .file hloc hfree hspecial hnode

/-- What is read is left in the file. -/
theorem length_read_le (o : Outcomes) (d : Volume) (loc : Location) (offset size : Nat) :
    (d.read o loc offset size).1.length ≤ (d.tree.bytes loc).length - offset :=
  calc (d.read o loc offset size).1.length
    _ ≤ (((d.tree.bytes loc).drop offset).take size).length := length_upToPart_le ..
    _ ≤ ((d.tree.bytes loc).drop offset).length := List.length_take_le' ..
    _ = (d.tree.bytes loc).length - offset := List.length_drop

theorem read_whole (ho : o.Whole) (offset size : Nat) :
    (d.read o loc offset size).1 = ((d.tree.bytes loc).drop offset).take size := by
  rw [read, ho.read]
  rfl

/-- Only the file changes, and it gets the bytes that reach it. -/
theorem append_file (o : Outcomes) (bytes : List UInt8) {content : List UInt8}
    (hfile : d.tree.node loc = some (.file content)) (loc' : Location) :
    (d.append o loc bytes).tree.node loc' =
      if loc' = loc then some (.file (content ++ upToPart bytes (o.write d.clock)))
      else d.tree.node loc' := by
  obtain ⟨t, hput⟩ := Tree.put_of_node hfile (by simp)
    (.file (content ++ upToPart bytes (o.write d.clock)))
  rw [append, hfile]
  simp only [hput]
  exact (Tree.put_eq_some hput).1 loc'

end

end Volume

end FileTree
