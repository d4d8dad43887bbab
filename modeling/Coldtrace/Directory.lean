import Mathlib.Data.List.AList
import Mathlib.Tactic.Common
import Coldtrace.Lib.CString
import Coldtrace.Lib.FileTree
import Coldtrace.Config
import Coldtrace.MappedFiles

/-!
# The trace directory

The model of the functions of `utils.c` that `config.c` calls when the module is
loaded.  The directory of the traces is created if nothing is there, and the
traces of earlier runs are removed from it.

A directory maps names to what they stand for, in the order in which `readdir`
returns them.  A link stands for what it leads to.  `DirOutcomes` says how the
system calls turn out.  A file that `stat` cannot look at is passed over, and an
error of `readdir` is taken for the end of the directory: neither makes
`ensure_dir_empty` fail.  A `remove` that fails does, and ends the cleaning.

`snprintf` does not cut a name off: the path has fewer than 105 bytes, and no
file system here has names of more than 255.
-/

namespace Coldtrace

open Decimal
open FileTree (Node)

/-! ## Directories -/

abbrev Folder := AList fun _ : List UInt8 => Node

/-- What is at a path. -/
inductive Place where
  | absent
  | folder (f : Folder)
  /-- Something that is not a directory. -/
  | other

/-- What a name in the directory at the path stands for. -/
def Place.lookup : Place → List UInt8 → Option Node
  | .folder f, name => f.lookup name
  | _, _ => none

/-- How the system calls of `utils.c` turn out. -/
structure DirOutcomes where
  /-- `stat` in `ensure_dir_exists`, where something is at the path. -/
  stat : Bool := true
  /-- `mkdir`, where nothing is at the path. -/
  mkdir : Bool := true
  /-- `opendir` of a directory. -/
  opendir : Bool := true
  /-- The number of names after which `readdir` fails, if it does. -/
  readdir : Option Nat := none
  /-- `stat` in `ensure_dir_empty`, for each name. -/
  statFile : List UInt8 → Bool := fun _ => true
  /-- `remove`, for each name. -/
  remove : List UInt8 → Bool := fun _ => true

def binExt : List UInt8 := ascii ".bin"

/-! ## The functions of `utils.c` -/

/-- `ensure_dir_exists`.  `mkdir` fails where something is at the path. -/
def ensureDirExists (o : DirOutcomes) : Place → Bool × Place
  | .absent => if o.mkdir then (true, .folder ∅) else (false, .absent)
  | .folder f => (o.stat, .folder f)
  | .other => (false, .other)

/-- The loop of `ensure_dir_empty`. -/
def removeTraces (o : DirOutcomes) : List (List UInt8) → Folder → Bool × Folder
  | [], f => (true, f)
  | name :: names, f =>
      if name = ascii "." ∨ name = ascii ".." then removeTraces o names f
      else if !hasExt name binExt then removeTraces o names f
      else
        match o.statFile name, f.lookup name with
        | true, some (.file _) =>
            if o.remove name then removeTraces o names (f.erase name) else (false, f)
        | _, _ => removeTraces o names f

/-- The names that `readdir` returns. -/
def listed (o : DirOutcomes) (f : Folder) : List (List UInt8) :=
  let names := ascii "." :: ascii ".." :: f.keys
  match o.readdir with
  | none => names
  | some n => names.take n

/-- `ensure_dir_empty`. -/
def ensureDirEmpty (o : DirOutcomes) : Place → Bool × Place
  | .folder f =>
      if !o.opendir then (false, .folder f)
      else
        let (ok, f) := removeTraces o (listed o f) f
        (ok, .folder f)
  | place => (false, place)

/-- The `DICE_MODULE_INIT` of `config.c`, with what it does at the path. -/
def initialise (env : Env) (o : DirOutcomes) (place : Place) : Settings × Place :=
  match env.path with
  | none => (moduleInit env false false, place)
  | some var =>
      if !(setPath (readNumbers env) var).1 then (moduleInit env false false, place)
      else
        match ensureDirExists o place with
        | (false, place) => (moduleInit env false false, place)
        | (true, place) =>
            if env.disableCleanup.isSome then (moduleInit env true false, place)
            else
              let (ok, place) := ensureDirEmpty o place
              (moduleInit env true ok, place)

/-! ## Cleaning -/

/-- A name of a regular file that is cleaned. -/
def IsTrace (place : Place) (name : List UInt8) : Prop :=
  hasExt name binExt = true ∧ ∃ content, place.lookup name = some (.file content)

section

variable {o : DirOutcomes} {names : List (List UInt8)} {f : Folder} {place : Place}
  {name : List UInt8}

theorem removeTraces_cons (o : DirOutcomes) (name : List UInt8) (names : List (List UInt8))
    (f : Folder) :
    removeTraces o (name :: names) f = removeTraces o names f ∨
      (IsTrace (.folder f) name ∧ o.remove name = true ∧
        removeTraces o (name :: names) f = removeTraces o names (f.erase name)) ∨
      (IsTrace (.folder f) name ∧ removeTraces o (name :: names) f = (false, f)) := by
  rw [removeTraces]
  split
  next => exact .inl rfl
  next =>
    split
    next => exact .inl rfl
    next hext =>
      rw [Bool.not_eq_true', Bool.not_eq_false] at hext
      split
      next content _ hfile =>
        have htrace : IsTrace (.folder f) name := ⟨hext, content, hfile⟩
        split
        next hremove => exact .inr (.inl ⟨htrace, hremove, rfl⟩)
        next => exact .inr (.inr ⟨htrace, rfl⟩)
      next => exact .inl rfl

/-- The cleaning removes traces only. -/
theorem lookup_removeTraces (h : ¬ IsTrace (.folder f) name) :
    (removeTraces o names f).2.lookup name = f.lookup name := by
  induction names generalizing f with
  | nil => rfl
  | cons name' names ih =>
      rcases removeTraces_cons o name' names f with heq | ⟨htrace, -, heq⟩ | ⟨-, heq⟩
      · rw [heq, ih h]
      · have hne : name ≠ name' := fun hname => h (hname ▸ htrace)
        have hkept : (f.erase name').lookup name = f.lookup name := AList.lookup_erase_ne hne
        have hother : ¬ IsTrace (.folder (f.erase name')) name := by
          simpa only [IsTrace, Place.lookup, hkept] using h
        rw [heq, ih hother, hkept]
      · rw [heq]

/-- Nothing is added. -/
theorem removeTraces_sub {node : Node} (h : (removeTraces o names f).2.lookup name = some node) :
    f.lookup name = some node := by
  induction names generalizing f with
  | nil => exact h
  | cons name' names ih =>
      rcases removeTraces_cons o name' names f with heq | ⟨-, -, heq⟩ | ⟨-, heq⟩
      · exact ih (heq ▸ h)
      · have hkept := ih (heq ▸ h)
        by_cases hname : name = name'
        · rw [hname, AList.lookup_erase] at hkept
          cases hkept
        · rwa [AList.lookup_erase_ne hname] at hkept
      · rwa [heq] at h

/-- A cleaning that succeeds leaves no trace among the names it saw. -/
theorem removeTraces_ok (hstat : ∀ name, o.statFile name = true)
    (h : (removeTraces o names f).1 = true) (hname : name ∈ names)
    (hdots : name ≠ ascii "." ∧ name ≠ ascii "..") :
    ¬ IsTrace (.folder (removeTraces o names f).2) name := by
  induction names generalizing f with
  | nil => cases hname
  | cons name' names ih =>
      by_cases hrest : name ∈ names
      · rcases removeTraces_cons o name' names f with heq | ⟨-, -, heq⟩ | ⟨-, heq⟩
        · rw [heq] at h ⊢
          exact ih h hrest
        · rw [heq] at h ⊢
          exact ih h hrest
        · rw [heq] at h
          cases h
      · obtain rfl : name = name' := (List.mem_cons.mp hname).resolve_right hrest
        rintro ⟨hext, content, hfile⟩
        have hbefore : f.lookup name = some (.file content) := removeTraces_sub hfile
        -- the name is regular and can be removed, so the loop erases it
        have heq : removeTraces o (name :: names) f =
            if o.remove name then removeTraces o names (f.erase name) else (false, f) := by
          rw [removeTraces, if_neg (not_or.mpr hdots), hext]
          simp only [Bool.not_true, Bool.false_eq_true, if_false, hstat, hbefore]
        rw [heq] at h hfile
        split at h
        next hremove =>
          rw [if_pos hremove] at hfile
          have hgone := removeTraces_sub hfile
          rw [AList.lookup_erase] at hgone
          cases hgone
        next => cases h

theorem not_dots_of_hasExt (h : hasExt name binExt = true) :
    name ≠ ascii "." ∧ name ≠ ascii ".." := by
  constructor <;>
  · rintro rfl
    exact absurd h (by decide)

theorem lookup_ensureDirExists (o : DirOutcomes) (place : Place) (name : List UInt8) :
    (ensureDirExists o place).2.lookup name = place.lookup name := by
  cases place with
  | absent =>
      rw [ensureDirExists]
      split <;> rfl
  | folder => rfl
  | other => rfl

theorem lookup_ensureDirEmpty (h : ¬ IsTrace place name) :
    (ensureDirEmpty o place).2.lookup name = place.lookup name := by
  cases place with
  | absent => rfl
  | other => rfl
  | folder f =>
      rw [ensureDirEmpty]
      split
      next => rfl
      next => exact lookup_removeTraces h

theorem ensureDirEmpty_sub {node : Node} (h : (ensureDirEmpty o place).2.lookup name = some node) :
    place.lookup name = some node := by
  cases place with
  | absent => exact h
  | other => exact h
  | folder f =>
      rw [ensureDirEmpty] at h
      split at h
      next => exact h
      next => exact removeTraces_sub h

/-- A directory that was emptied has no traces. -/
theorem ensureDirEmpty_ok (hread : o.readdir = none) (hstat : ∀ name, o.statFile name = true)
    (h : (ensureDirEmpty o place).1 = true) :
    ∃ f, (ensureDirEmpty o place).2 = .folder f ∧ ∀ name, ¬ IsTrace (.folder f) name := by
  cases place with
  | absent => cases h
  | other => cases h
  | folder f =>
      rw [ensureDirEmpty] at h ⊢
      split at h
      next => cases h
      next hopen =>
        rw [if_neg hopen]
        refine ⟨_, rfl, fun name htrace => ?_⟩
        obtain ⟨content, hfile⟩ := htrace.2
        have hmem : name ∈ f.keys :=
          AList.mem_keys.mp (AList.lookup_isSome.mp (by rw [removeTraces_sub hfile]; rfl))
        have hlisted : name ∈ listed o f := by
          simp only [listed, hread]
          exact List.mem_cons_of_mem _ (List.mem_cons_of_mem _ hmem)
        exact removeTraces_ok hstat h hlisted (not_dots_of_hasExt htrace.1) htrace

end

/-- Without a directory that exists, writes are disabled. -/
theorem moduleInit_no_dir (env : Env) (dirEmptied : Bool) :
    (moduleInit env false dirEmptied).writesDisabled = true := by
  rw [moduleInit]
  split
  next => rfl
  next =>
    dsimp only
    split
    next => rfl
    next => rfl

theorem moduleInit_not_emptied {env : Env} (h : env.disableCleanup = none) :
    (moduleInit env true false).writesDisabled = true := by
  rw [moduleInit, h]
  split
  next => rfl
  next =>
    dsimp only
    split
    next => rfl
    next => rfl

/-- What `initialise` does, by the way it ends: it is refused before it cleans, it is
told not to clean, or it cleans. -/
inductive Initialised (env : Env) (o : DirOutcomes) (place : Place) : Settings × Place → Prop where
  | refused {place' : Place} : (∀ name, place'.lookup name = place.lookup name) →
      Initialised env o place (moduleInit env false false, place')
  | uncleaned {place' : Place} : (∀ name, place'.lookup name = place.lookup name) →
      env.disableCleanup.isSome = true → Initialised env o place (moduleInit env true false, place')
  | cleaned {place' : Place} : (∀ name, place'.lookup name = place.lookup name) →
      Initialised env o place
        (moduleInit env true (ensureDirEmpty o place').1, (ensureDirEmpty o place').2)

theorem initialise_spec (env : Env) (o : DirOutcomes) (place : Place) :
    Initialised env o place (initialise env o place) := by
  have hexists := lookup_ensureDirExists o place
  rw [initialise]
  split
  next => exact .refused fun _ => rfl
  next =>
    split
    next => exact .refused fun _ => rfl
    next =>
      split
      next hplace => exact .refused fun name => by rw [← hexists, hplace]
      next hplace =>
        rw [hplace] at hexists
        split
        next hoff => exact .uncleaned hexists hoff
        next => exact .cleaned hexists

theorem lookup_initialise (env : Env) (o : DirOutcomes) {place : Place} {name : List UInt8}
    (h : ¬ IsTrace place name) : (initialise env o place).2.lookup name = place.lookup name := by
  have hspec := initialise_spec env o place
  generalize initialise env o place = result at hspec
  cases hspec with
  | refused hsame => exact hsame name
  | uncleaned hsame => exact hsame name
  | cleaned hsame =>
      refine (lookup_ensureDirEmpty ?_).trans (hsame name)
      simpa only [IsTrace, hsame] using h

/-- Nothing is added. -/
theorem initialise_sub {env : Env} {o : DirOutcomes} {place : Place} {name : List UInt8}
    {node : Node} (h : (initialise env o place).2.lookup name = some node) :
    place.lookup name = some node := by
  have hspec := initialise_spec env o place
  generalize initialise env o place = result at hspec h
  cases hspec with
  | refused hsame => exact (hsame name).symm.trans h
  | uncleaned hsame => exact (hsame name).symm.trans h
  | cleaned hsame => exact (hsame name).symm.trans (ensureDirEmpty_sub h)

theorem initialise_leaves_none {env : Env} {o : DirOutcomes} {place : Place}
    (hw : (initialise env o place).1.writesDisabled = false) (hclean : env.disableCleanup = none)
    (hread : o.readdir = none) (hstat : ∀ name, o.statFile name = true) :
    ∃ f, (initialise env o place).2 = .folder f ∧ ∀ name, ¬ IsTrace (.folder f) name := by
  have hspec := initialise_spec env o place
  generalize initialise env o place = result at hspec hw
  cases hspec with
  | refused =>
      rw [moduleInit_no_dir] at hw
      cases hw
  | uncleaned _ hoff =>
      rw [hclean] at hoff
      cases hoff
  | @cleaned place' _ =>
      refine ensureDirEmpty_ok hread hstat ?_
      by_contra hfailed
      rw [Bool.not_eq_true] at hfailed
      rw [hfailed, moduleInit_not_emptied hclean] at hw
      cases hw

/-- What the module does at its path, whatever is there and whatever fails.  It
removes nothing but regular files with the extension of traces.  If it cleans and
leaves writes enabled then no such file is left, so far as the directory could be
read. -/
theorem initialise_cleans (env : Env) (o : DirOutcomes) (place : Place) :
    (∀ name, ¬ IsTrace place name →
      (initialise env o place).2.lookup name = place.lookup name) ∧
    ((initialise env o place).1.writesDisabled = false → env.disableCleanup = none →
      o.readdir = none → (∀ name, o.statFile name = true) →
      ∃ f, (initialise env o place).2 = .folder f ∧ ∀ name, ¬ IsTrace (.folder f) name) :=
  ⟨fun _ => lookup_initialise env o, initialise_leaves_none⟩

/-- A directory with an old trace and a text. -/
def oldFolder : Folder :=
  (AList.singleton (ascii "freezer_log_1_0.bin") (.file [7])).insert (ascii "notes") (.file [8])

theorem initialise_cleans_old :
    ∃ f, (initialise { path := some (ascii "t") } {} (.folder oldFolder)).2 = .folder f ∧
      (∀ name, ¬ IsTrace (.folder f) name) ∧ f.lookup (ascii "notes") = some (.file [8]) := by
  obtain ⟨hkept, hclean⟩ :=
    initialise_cleans { path := some (ascii "t") } {} (.folder oldFolder)
  obtain ⟨f, hf, hnone⟩ := hclean rfl rfl rfl fun _ => rfl
  have hnotes := hkept (ascii "notes") fun htrace => absurd htrace.1 (by decide)
  rw [hf] at hnotes
  exact ⟨f, hf, hnone, hnotes⟩

end Coldtrace
