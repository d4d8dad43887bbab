import Mathlib.Tactic.Common
import Coldtrace.Lib.Machine
import Coldtrace.Writer
import Coldtrace.Reserve
import Coldtrace.Session
import Coldtrace.Files
import Coldtrace.FileSteps

/-!
# Writers that share their files

Writers with one thread id and one trace path have the same files.  They are
in processes that run at the same time, or one after the other over the files
that are there.  A process that forks leaves a copy of its writer in the child.

The machine interleaves the writers at their file system calls.  `ops` is the
history of these calls.  It says of each call who made it and whether it created
the file, and nothing in the machine reads it.

A writer creates the file of its first fragment with `O_EXCL`, and flushes that
fragment to its own file in every interleaving.  For later fragments it takes the
next number and opens the file with `O_TRUNC`, whoever the file belongs to.  Its
files are its own where no number is missing among the files of the start, and no
other writer claims a file before the last of its fragments is flushed
(`Shared.inTurn`).
-/

namespace Coldtrace

/-! ## File system calls -/

/-- A call of `flush_`, which truncates or overwrites the file. -/
def FsCall.isFlush : FsCall → Bool
  | .openTrunc _ | .write _ => true
  | _ => false

/-- The call creates the file, in the directory it meets. -/
def FsCall.creates (d : Dir) : FsCall → Bool
  | .openExcl n | .openTrunc n => !d.has n
  | _ => false

/-- A file system call in the history. -/
structure FileOp where
  writer : Nat
  call : FsCall
  /-- The call created the file. -/
  created : Bool
deriving DecidableEq, Repr

/-- The writer that created a file.  There is none for a file that was there at
the start. -/
def creator (ops : List FileOp) (n : Nat) : Option Nat :=
  (ops.find? fun op => op.created && op.call.number == n).map (·.writer)

theorem creator_append (ops ops' : List FileOp) (n : Nat) :
    creator (ops ++ ops') n = (creator ops n).or (creator ops' n) := by
  rw [creator, List.find?_append, creator, creator]
  cases ops.find? fun op => op.created && op.call.number == n <;> rfl

/-- The call is the `open` of `first_fragment_` that found its file. -/
def FileOp.claims (op : FileOp) : Bool :=
  match op.call with
  | .openExcl _ => op.created
  | _ => false

/-- The writer that claimed a first file last, and the number of the file. -/
def lastClaim (ops : List FileOp) : Option (Nat × Nat) :=
  (ops.reverse.find? FileOp.claims).map fun op => (op.writer, op.call.number)

theorem lastClaim_concat (ops : List FileOp) (op : FileOp) :
    lastClaim (ops ++ [op]) =
      if op.claims then some (op.writer, op.call.number) else lastClaim ops := by
  rw [lastClaim, List.reverse_concat, List.find?_cons]
  split <;> simp_all [lastClaim]

/-- No number is missing below a file that exists. -/
def Dir.Gapless (d : Dir) : Prop := ∀ k ∈ d.names, ∀ j < k, j ∈ d.names

/-! ## The machine -/

/-- The files, and the writers on them.  The directory of a writer's world is
the one it met last. -/
structure Shared where
  dir : Dir
  writers : Nat → Option Party := fun _ => none
  /-- The file system calls, oldest first. -/
  ops : List FileOp := []

/-- A step of one writer. -/
inductive Turn where
  /-- `coldtrace_writer_init`, in a process with that memory. -/
  | init (i : Nat) (impl : WriterImpl) (tid : Nat) (w : World)
  /-- `fork` in the process of the first writer. -/
  | fork (i child : Nat)
  /-- Enter a call of `writer.h`. -/
  | call (i : Nat) (ev : WriterEvent)
  /-- Make the next file system call. -/
  | next (i : Nat)

namespace Shared

/-- The directory before the first writer starts. -/
def start (d : Dir) : Shared := { dir := d }

/-- The writer, with the files as they are now. -/
def sees (s : Shared) (p : Party) : Party := { p with world := { p.world with dir := s.dir } }

@[simp] theorem sees_impl (s : Shared) (p : Party) : (s.sees p).impl = p.impl := rfl

/-- Add a writer that has made no call yet. -/
def enter (s : Shared) (i : Nat) (impl : WriterImpl) (w : World) : Shared :=
  { s with writers := Function.update s.writers i (some ⟨impl, { w with calls := [] }, .rest⟩) }

/-- The writer moves from `p` to `p'`, and the files with it. -/
def move (s : Shared) (i : Nat) (p p' : Party) : Shared where
  dir := p'.world.dir
  writers := Function.update s.writers i (some p')
  ops := s.ops ++ (p'.world.calls.drop p.world.calls.length).map fun c => ⟨i, c, c.creates s.dir⟩

/-- One step.  A process forks between two calls of `writer.h`. -/
def step (B : Build) (s : Shared) : Turn → Option Shared
  | .init i impl tid w =>
      match s.writers i with
      | none => some (s.enter i (writerInit impl (some tid)) w)
      | some _ => none
  | .fork i child =>
      match s.writers i, s.writers child with
      | some ⟨impl, w, .rest⟩, none => some (s.enter child impl w)
      | _, _ => none
  | .call i ev =>
      match s.writers i with
      | some ⟨impl, w, .rest⟩ =>
          some (s.move i ⟨impl, w, .rest⟩ ((s.sees ⟨impl, w, .rest⟩).call B ev))
      | _ => none
  | .next i =>
      match s.writers i with
      | some p => some (s.move i p ((s.sees p).next B))
      | none => none

/-- What is asked of a step that truncates a file.  The fragment is the first of
the writer, which its last file system call claimed.  Or no writer claimed a file
after this one did, and its numbers have not wrapped around to one below that
file.  So a writer is done before the next one claims, and a child does not go
on with the fragment of its parent. -/
def inTurn (B : Build) (s : Shared) : Turn → Bool
  | .next i =>
      match s.writers i with
      | some p =>
          match p.opens B with
          | some n =>
              p.world.calls.getLast? == some (.openExcl n) ||
                (lastClaim s.ops).any fun claim => claim.1 == i && decide (claim.2 ≤ n)
          | none => true
      | none => true
  | _ => true

/-- Every flush went to a file that its writer created. -/
def OwnFlushes (ops : List FileOp) : Prop :=
  ∀ op ∈ ops, op.call.isFlush = true → creator ops op.call.number = some op.writer

/-- No writer disturbed a file it did not create, of the files `d` or of another
writer. -/
structure Undisturbed (d : Dir) (s : Shared) : Prop where
  own : OwnFlushes s.ops
  kept : ∀ n ∈ d.names, n ∈ s.dir.names ∧ s.dir.content n = d.content n

end Shared

/-- The calls on files of the step do not fail. -/
def Turn.IoSucceeds : Turn → Prop
  | .call _ ev => ev.o.IoSucceeds
  | _ => True

/-! ## One more call -/

theorem FsCall.not_mem_of_creates {d : Dir} {c : FsCall} (h : c.creates d = true) :
    c.number ∉ d.names := by
  cases c with
  | openExcl n => simpa [FsCall.creates, FsCall.number, Dir.has] using h
  | openTrunc n => simpa [FsCall.creates, FsCall.number, Dir.has] using h
  | write n => cases h
  | unlink n => cases h

section

variable {ops : List FileOp} {d dir dir' : Dir} {c : FsCall} {i j n : Nat}

theorem creator_mono (h : creator ops n = some i) (ops' : List FileOp) :
    creator (ops ++ ops') n = some i := by
  rw [creator_append, h]
  rfl

theorem creator_concat (ops : List FileOp) (op : FileOp) (n : Nat) :
    creator (ops ++ [op]) n = (creator ops n).or
      (if op.created && op.call.number == n then some op.writer else none) := by
  rw [creator_append]
  congr 1
  rw [creator, List.find?_singleton]
  split <;> rfl

/-- A file that exists is not created again. -/
theorem creator_of_mem (h : n ∈ dir.names) :
    creator (ops ++ [⟨i, c, c.creates dir⟩]) n = creator ops n := by
  rw [creator_concat, if_neg, Option.or_none]
  rw [Bool.and_eq_true, beq_iff_eq]
  rintro ⟨hc, rfl⟩
  exact FsCall.not_mem_of_creates hc h

/-- What the history and the files have to do with each other. -/
structure Tells (d dir : Dir) (ops : List FileOp) : Prop where
  created : ∀ n i, creator ops n = some i → n ∈ dir.names ∧ n ∉ d.names
  flushed : ∀ op ∈ ops, op.call.isFlush = true → op.call.number ∈ dir.names
  kept : ∀ n ∈ d.names, n ∈ dir.names ∧ (dir.content n = d.content n ∨
    ∃ op ∈ ops, op.call.isFlush = true ∧ op.call.number = n)

/-- A call on a file leaves the file there, and the others as they are. -/
theorem Tells.call (h : Tells d dir ops) (i : Nat)
    (hnames : ∀ m, m ∈ dir'.names ↔ m ∈ dir.names ∨ m = c.number)
    (hcontent : ∀ m, m ≠ c.number → dir'.content m = dir.content m)
    (hflush : c.isFlush = true ∨ (c.number ∈ dir.names →
      dir'.content c.number = dir.content c.number)) :
    Tells d dir' (ops ++ [⟨i, c, c.creates dir⟩]) where
  created m j hj := by
    rw [creator_concat] at hj
    cases hm : creator ops m with
    | some j' =>
        obtain ⟨hmem, hnot⟩ := h.created m j' hm
        exact ⟨(hnames m).mpr (.inl hmem), hnot⟩
    | none =>
        rw [hm, Option.none_or, Option.ite_none_right_eq_some, Bool.and_eq_true, beq_iff_eq] at hj
        obtain ⟨⟨hc, rfl⟩, -⟩ := hj
        exact ⟨(hnames _).mpr (.inr rfl),
          fun hd => FsCall.not_mem_of_creates hc (h.kept _ hd).1⟩
  flushed op hop hf := by
    rw [List.mem_append, List.mem_singleton] at hop
    rcases hop with hop | rfl
    · exact (hnames _).mpr (.inl (h.flushed op hop hf))
    · exact (hnames _).mpr (.inr rfl)
  kept m hm := by
    obtain ⟨hmem, hkept⟩ := h.kept m hm
    refine ⟨(hnames m).mpr (.inl hmem), ?_⟩
    rcases hkept with hkept | ⟨op, hop, hf⟩
    · by_cases heq : m = c.number
      · subst heq
        rcases hflush with hf | hsame
        · exact .inr ⟨_, List.mem_append_right _ (List.mem_singleton_self _), hf, rfl⟩
        · exact .inl ((hsame hmem).trans hkept)
      · exact .inl ((hcontent m heq).trans hkept)
    · exact .inr ⟨op, List.mem_append_left _ hop, hf⟩

/-- The flushes after one more call. -/
theorem ownFlushes_concat (h : Tells d dir ops) :
    Shared.OwnFlushes (ops ++ [⟨i, c, c.creates dir⟩]) ↔ Shared.OwnFlushes ops ∧
      (c.isFlush = true → creator (ops ++ [⟨i, c, c.creates dir⟩]) c.number = some i) := by
  constructor
  · intro hown
    refine ⟨fun op hop hf => ?_, fun hf => ?_⟩
    · rw [← creator_of_mem (i := i) (c := c) (h.flushed op hop hf)]
      exact hown op (List.mem_append_left _ hop) hf
    · exact hown _ (List.mem_append_right _ (List.mem_singleton_self _)) hf
  · rintro ⟨hown, hlast⟩ op hop hf
    rw [List.mem_append, List.mem_singleton] at hop
    rcases hop with hop | rfl
    · exact creator_mono (hown op hop hf) _
    · exact hlast hf

theorem creator_of_creates (h : Tells d dir ops) (hc : c.creates dir = true) :
    creator (ops ++ [⟨i, c, c.creates dir⟩]) c.number = some i := by
  have hnone : creator ops c.number = none := by
    cases hj : creator ops c.number with
    | none => rfl
    | some j => exact absurd (h.created _ j hj).1 (FsCall.not_mem_of_creates hc)
  rw [creator_concat, hnone]
  simp [hc]

/-- Who created the file that `flush_` opens. -/
theorem creator_openTrunc (h : Tells d dir ops) :
    creator (ops ++ [⟨i, .openTrunc n, (FsCall.openTrunc n).creates dir⟩]) n = some i ↔
      dir.has n = false ∨ creator ops n = some i := by
  rw [creator_concat]
  cases hn : creator ops n with
  | some j =>
      have hhas : dir.has n = true := by simpa [Dir.has] using (h.created n j hn).1
      simp [hhas]
  | none => simp [FsCall.creates, FsCall.number]

end

/-! ## Steps -/

/-- What holds of a writer in every state: the file it claimed is its own until
it is flushed, and a flush that is under way opened the file. -/
structure Party.Keeps (ops : List FileOp) (i : Nat) (p : Party) : Prop where
  io : p.point.IoSucceeds
  unbuffered : p.impl.Unbuffered → p.world.calls = [] ∧ p.point = .rest
  claimed : p.point.isClaiming = false → ∀ n, p.world.calls.getLast? = some (.openExcl n) →
    n = p.impl.enumerator ∧ creator ops n = some i
  writing : p.point.isWriting = true → ∃ op ∈ ops, op.writer = i ∧ op.call.isFlush = true ∧
    op.call.number = p.impl.enumerator

structure Shared.Sound (d : Dir) (s : Shared) : Prop where
  files : Tells d s.dir s.ops
  writers : ∀ i p, s.writers i = some p → p.Keeps s.ops i

section

variable {B : Build} {ops : List FileOp} {d : Dir} {i : Nat} {p p' : Party} {s s' : Shared}

theorem Party.Keeps.mono (h : p.Keeps ops i) (ops' : List FileOp) : p.Keeps (ops ++ ops') i where
  io := h.io
  unbuffered := h.unbuffered
  claimed hc n hn := ⟨(h.claimed hc n hn).1, creator_mono (h.claimed hc n hn).2 ops'⟩
  writing hw := by
    obtain ⟨op, hop, hrest⟩ := h.writing hw
    exact ⟨op, List.mem_append_left _ hop, hrest⟩

theorem Party.Keeps.enter (impl : WriterImpl) (w : World) :
    Party.Keeps ops i ⟨impl, { w with calls := [] }, .rest⟩ where
  io := trivial
  unbuffered _ := ⟨rfl, rfl⟩
  claimed _ n hn := by cases hn
  writing hw := by cases hw

theorem Shared.move_ops_quiet (h : p'.world.calls = p.world.calls) :
    (s.move i p p').ops = s.ops := by
  simp [Shared.move, h]

theorem Shared.move_ops {c : FsCall} (h : p'.world.calls = p.world.calls ++ [c]) :
    (s.move i p p').ops = s.ops ++ [⟨i, c, c.creates s.dir⟩] := by
  simp [Shared.move, h]

/-- A step that makes no call or one. -/
theorem Shared.Sound.move (h : s.Sound d) {new : List FileOp}
    (hops : (s.move i p p').ops = s.ops ++ new) (hfiles : Tells d p'.world.dir (s.ops ++ new))
    (hp' : p'.Keeps (s.ops ++ new) i) : (s.move i p p').Sound d where
  files := by
    rw [hops]
    exact hfiles
  writers j q hq := by
    rw [hops]
    change Function.update s.writers i (some p') j = some q at hq
    rw [Function.update_apply] at hq
    split at hq
    next heq =>
      cases hq
      subst heq
      exact hp'
    next => exact (h.writers j q hq).mono new

/-- The file a writer is about to truncate is the one it claimed, or is not there,
or was created by it. -/
def Shared.ClearFor (B : Build) (s : Shared) (i : Nat) (p : Party) : Prop :=
  ∀ n, p.opens B = some n → p.world.calls.getLast? = some (.openExcl n) ∨ s.dir.has n = false ∨
    creator s.ops n = some i

theorem Shared.ClearFor.of_none (h : p.opens B = none) : s.ClearFor B i p := by
  intro n hn
  cases h.symm.trans hn

theorem Point.not_writing_of_claiming {point : Point} (h : point.isClaiming = true) :
    point.isWriting = false := by
  cases point <;> simp_all [Point.isClaiming, Point.isWriting]

theorem opens_of_claiming (h : p.point.isClaiming = true) : p.opens B = none := by
  cases hp : p.point <;> simp_all [Party.opens, Point.isClaiming]

theorem not_claiming_of_opens {n : Nat} (h : p.opens B = some n) : p.point.isClaiming = false := by
  cases hc : p.point.isClaiming with
  | false => rfl
  | true => cases (opens_of_claiming hc).symm.trans h

theorem opens_of_writing (h : p.point.isWriting = true) : p.opens B = none := by
  cases hp : p.point <;> simp_all [Party.opens, Point.isWriting]

/-- A writer that is to get its buffer makes no call on a file. -/
theorem Party.Steps.unbuffered_calls (h : Steps B p p') (hk : p.Keeps ops i)
    (hu : p'.impl.Unbuffered) : p'.world.calls = [] ∧ p'.point = .rest := by
  obtain ⟨hun, hpoint⟩ := h.unbuffered hu
  obtain ⟨hcalls, hrest⟩ := hk.unbuffered hun
  refine ⟨?_, hpoint hrest⟩
  cases h.moved with
  | quiet _ _ _ hsame _ => exact hsame.calls.trans hcalls
  | taken hc _ _ _ _ => simp [hrest, Point.isClaiming] at hc
  | claimed hc _ _ _ _ _ => simp [hrest, Point.isClaiming] at hc
  | opened ho _ _ _ => simp [opens_of_rest hrest] at ho
  | written hw _ _ _ => simp [hrest, Point.isWriting] at hw

/-- A step whose call is not the `open` of a claim. -/
theorem Party.Steps.keeps (h : Steps B p p') (hk : p.Keeps ops i) {new : List FileOp}
    (hclaimed : p'.point.isClaiming = false → ∀ n, p'.world.calls.getLast? = some (.openExcl n) →
      n = p'.impl.enumerator ∧ creator (ops ++ new) n = some i)
    (hwriting : p'.point.isWriting = true → ∃ op ∈ ops ++ new, op.writer = i ∧
      op.call.isFlush = true ∧ op.call.number = p'.impl.enumerator) : p'.Keeps (ops ++ new) i where
  io := h.io
  unbuffered := h.unbuffered_calls hk
  claimed := hclaimed
  writing := hwriting

theorem Shared.Sound.keeps_sees (h : s.Sound d) (hp : s.writers i = some p) :
    (s.sees p).Keeps s.ops i := by
  obtain ⟨hio, hun, hcl, hwr⟩ := h.writers i p hp
  exact ⟨hio, hun, hcl, hwr⟩

/-- A step with one call, on a file that is there after it. -/
theorem Shared.Sound.called (h : s.Sound d) (hp : s.writers i = some p)
    (hs : (s.sees p).Steps B p') {c : FsCall} (hcalls : p'.world.calls = p.world.calls ++ [c])
    (hnames : ∀ m, m ∈ p'.world.dir.names ↔ m ∈ s.dir.names ∨ m = c.number)
    (hcontent : ∀ m, m ≠ c.number → p'.world.dir.content m = s.dir.content m)
    (hflush : c.isFlush = true ∨ (c.number ∈ s.dir.names →
      p'.world.dir.content c.number = s.dir.content c.number))
    (hclaimed : p'.point.isClaiming = false → ∀ n, c = .openExcl n → n = p'.impl.enumerator ∧
      creator (s.ops ++ [⟨i, c, c.creates s.dir⟩]) n = some i)
    (hwriting : p'.point.isWriting = true → c.isFlush = true ∧ c.number = p'.impl.enumerator)
    (hclear : OwnFlushes s.ops → ((c.isFlush = true →
      creator (s.ops ++ [⟨i, c, c.creates s.dir⟩]) c.number = some i) ↔ s.ClearFor B i p)) :
    (s.move i p p').Sound d ∧
      (OwnFlushes (s.move i p p').ops ↔ OwnFlushes s.ops ∧ s.ClearFor B i p) := by
  have hops : (s.move i p p').ops = s.ops ++ [⟨i, c, c.creates s.dir⟩] := Shared.move_ops hcalls
  refine ⟨h.move hops (h.files.call i hnames hcontent hflush)
    (hs.keeps (h.keeps_sees hp) (fun hc n hn => ?_) fun hw => ?_), ?_⟩
  · rw [hcalls, List.getLast?_concat, Option.some.injEq] at hn
    exact hclaimed hc n hn
  · obtain ⟨hf, hn⟩ := hwriting hw
    exact ⟨_, List.mem_append_right _ (List.mem_singleton_self _), rfl, hf, hn⟩
  · rw [hops, ownFlushes_concat h.files]
    exact and_congr_right hclear

/-- A flush that is under way has its file. -/
theorem Shared.Sound.mem_of_writing (h : s.Sound d) (hp : s.writers i = some p)
    (hw : p.point.isWriting = true) : p.impl.enumerator ∈ s.dir.names := by
  obtain ⟨op, hop, -, hf, hn⟩ := (h.writers i p hp).writing hw
  exact hn ▸ h.files.flushed op hop hf

/-- What a step of a writer makes of the invariant and of the flushes. -/
theorem Shared.Sound.moved (h : s.Sound d) (hp : s.writers i = some p)
    (hs : (s.sees p).Steps B p') :
    (s.move i p p').Sound d ∧
      (OwnFlushes (s.move i p p').ops ↔ OwnFlushes s.ops ∧ s.ClearFor B i p) := by
  have hk := h.keeps_sees hp
  cases hs.moved with
  | quiet hc ho hw hsame henum =>
      have hops : (s.move i p p').ops = s.ops ++ [] :=
        (Shared.move_ops_quiet hsame.calls).trans (List.append_nil _).symm
      have hclear : s.ClearFor B i p := .of_none ho
      refine ⟨h.move hops ?_ (hs.keeps hk (fun _ n hn => ?_) fun hw' => ?_), ?_⟩
      · rw [hsame.dir, List.append_nil]
        exact h.files
      · rw [hsame.calls] at hn
        obtain ⟨hn', hcr⟩ := hk.claimed hc n hn
        rw [List.append_nil]
        rcases henum with henum | hun
        · exact ⟨hn'.trans henum.symm, hcr⟩
        · rw [(hk.unbuffered hun).1] at hn
          cases hn
      · cases hw.symm.trans hw'
      · rw [hops, List.append_nil]
        exact ⟨fun hown => ⟨hown, hclear⟩, And.left⟩
  | taken hc hc' hhas hdir hcalls =>
      have hmem : p.impl.enumerator ∈ s.dir.names := of_decide_eq_true hhas
      have hdir : p'.world.dir = s.dir := hdir
      refine h.called hp hs hcalls ?_ ?_ (.inr fun _ => by rw [hdir]) ?_ ?_ fun _ => ?_
      · intro m
        rw [hdir]
        exact (or_iff_left_of_imp (· ▸ hmem)).symm
      · intro m _
        rw [hdir]
      · intro hno
        cases hc'.symm.trans hno
      · intro hw
        cases (Point.not_writing_of_claiming hc').symm.trans hw
      · exact ⟨fun _ => .of_none (opens_of_claiming hc), fun _ hf => by cases hf⟩
  | claimed hc hw hhas hdir hcalls henum =>
      have hhas : s.dir.has p.impl.enumerator = false := hhas
      have hdir : p'.world.dir = s.dir.openEmpty p.impl.enumerator := hdir
      refine h.called hp hs hcalls ?_ ?_ (.inr fun hmem => ?_) ?_ ?_ fun _ => ?_
      · intro m
        rw [hdir]
        exact mem_names_openEmpty
      · intro m hm
        rw [hdir, content_openEmpty]
        exact if_neg hm
      · exact absurd hmem (by simpa [Dir.has, FsCall.number] using hhas)
      · rintro - n heq
        cases heq
        exact ⟨henum.symm, creator_of_creates h.files (by simp [FsCall.creates, hhas])⟩
      · intro hw'
        cases hw.symm.trans hw'
      · exact ⟨fun _ => .of_none (opens_of_claiming hc), fun _ hf => by cases hf⟩
  | opened ho hdir hcalls henum =>
      have hdir : p'.world.dir = s.dir.openEmpty p.impl.enumerator := hdir
      refine h.called hp hs hcalls ?_ ?_ (.inl rfl) ?_ ?_ fun _ => ?_
      · intro m
        rw [hdir]
        exact mem_names_openEmpty
      · intro m hm
        rw [hdir, content_openEmpty]
        exact if_neg hm
      · rintro - n heq
        cases heq
      · exact fun _ => ⟨rfl, henum.symm⟩
      · have hcr := creator_openTrunc (i := i) (n := p.impl.enumerator) h.files
        constructor
        · intro hown n hn
          cases ho.symm.trans hn
          exact .inr (hcr.mp (hown rfl))
        · rintro hclear -
          rcases hclear _ ho with hlast | hrest
          · exact hcr.mpr (.inr (hk.claimed (not_claiming_of_opens ho) _ hlast).2)
          · exact hcr.mpr hrest
  | written hw hw' hdir hcalls =>
      have hdir : p'.world.dir = s.dir.put p.impl.enumerator _ := hdir
      have hmem := h.mem_of_writing hp hw
      refine h.called hp hs hcalls ?_ ?_ (.inl rfl) ?_ ?_ fun hown => ?_
      · intro m
        rw [hdir]
        exact (or_iff_left_of_imp (· ▸ hmem)).symm
      · intro m hm
        rw [hdir, content_put]
        exact if_neg hm
      · rintro - n heq
        cases heq
      · intro hw''
        cases hw'.symm.trans hw''
      · have hcr : creator s.ops p.impl.enumerator = some i := by
          obtain ⟨op, hop, hwriter, hf, hn⟩ := hk.writing hw
          rw [show p.impl.enumerator = op.call.number from hn.symm, ← hwriter]
          exact hown op hop hf
        exact ⟨fun _ => .of_none (opens_of_writing hw), fun _ _ => creator_mono hcr _⟩

theorem Shared.sound_start (d : Dir) : (Shared.start d).Sound d where
  files :=
    { created := fun n i hn => by cases hn
      flushed := fun op hop => by cases hop
      kept := fun n hn => ⟨hn, .inl rfl⟩ }
  writers i p hp := by cases hp

/-- The files of the start are touched by a flush only. -/
theorem Shared.Sound.undisturbed (h : s.Sound d) (hown : OwnFlushes s.ops) : s.Undisturbed d := by
  refine ⟨hown, fun n hn => ?_⟩
  obtain ⟨hmem, hkept | ⟨op, hop, hf, rfl⟩⟩ := h.files.kept n hn
  · exact ⟨hmem, hkept⟩
  · exact absurd hn (h.files.created _ _ (hown op hop hf)).2

/-! ## Writers in turn -/

/-- What holds as long as every step is in turn.  No number is missing, a writer
finds the files below its own number, and the files from the last claimed one on
are those of the writer that claimed it. -/
structure Shared.Orderly (s : Shared) : Prop where
  own : OwnFlushes s.ops
  gapless : s.dir.Gapless
  below : ∀ i p, s.writers i = some p → p.Counts → ∀ k < p.impl.enumerator, k ∈ s.dir.names
  last : ∀ i n, lastClaim s.ops = some (i, n) → ∀ k ∈ s.dir.names, n ≤ k →
    creator s.ops k = some i

/-- `Shared.inTurn` for the writer that steps. -/
def Shared.TurnOf (B : Build) (s : Shared) (i : Nat) (p : Party) : Prop :=
  ∀ n, p.opens B = some n → p.world.calls.getLast? = some (.openExcl n) ∨
    ∃ m ≤ n, lastClaim s.ops = some (i, m)

theorem Shared.TurnOf.of_none (h : p.opens B = none) : s.TurnOf B i p := by
  intro n hn
  cases h.symm.trans hn

theorem Shared.turnOf_next (hp : s.writers i = some p) (h : s.inTurn B (.next i) = true) :
    s.TurnOf B i p := by
  intro n hn
  simp only [Shared.inTurn, hp, hn, Bool.or_eq_true, beq_iff_eq, Option.any_eq_true,
    Bool.and_eq_true, decide_eq_true_eq] at h
  rcases h with hlast | ⟨⟨j, m⟩, hclaim, rfl, hle⟩
  · exact .inl hlast
  · exact .inr ⟨m, hle, hclaim⟩

/-- A file from the last claimed one on is that of the writer. -/
theorem Shared.Orderly.clearFor (h : s.Orderly) (hturn : s.TurnOf B i p) : s.ClearFor B i p := by
  intro n hn
  rcases hturn n hn with hlast | ⟨m, hle, hclaim⟩
  · exact .inl hlast
  · cases hhas : s.dir.has n with
    | false => exact .inr (.inl rfl)
    | true => exact .inr (.inr (h.last i m hclaim n (of_decide_eq_true hhas) hle))

/-- The numbers a writer goes past have files. -/
theorem Shared.Orderly.mem_of_passes (h : s.Orderly) (hsound : s.Sound d)
    (hp : s.writers i = some p) (hc : p.Counts) {k : Nat} (hk : (s.sees p).Passes k) :
    k ∈ s.dir.names := by
  rcases hk with hlt | ⟨rfl, hw | hhas⟩
  · exact h.below i p hp hc k hlt
  · exact hsound.mem_of_writing (p := p) hp hw
  · exact of_decide_eq_true hhas

/-- A step that adds a file at most. -/
theorem Shared.Orderly.move (h : s.Orderly) (hsound : s.Sound d) (hp : s.writers i = some p)
    (hs : (s.sees p).Steps B p') (hturn : s.TurnOf B i p)
    (hsub : ∀ m ∈ s.dir.names, m ∈ p'.world.dir.names) (hgapless : p'.world.dir.Gapless)
    (hlast : ∀ j n, lastClaim (s.move i p p').ops = some (j, n) → ∀ k ∈ p'.world.dir.names,
      n ≤ k → creator (s.move i p p').ops k = some j) : (s.move i p p').Orderly where
  own := (hsound.moved hp hs).2.mpr ⟨h.own, h.clearFor hturn⟩
  gapless := hgapless
  below j q hq hc k hk := by
    change Function.update s.writers i (some p') j = some q at hq
    rw [Function.update_apply] at hq
    apply hsub
    split at hq
    next =>
      cases hq
      obtain ⟨hcounts, hpasses⟩ := hs.passes hc k hk
      exact h.mem_of_passes hsound hp hcounts hpasses
    next => exact h.below j q hq hc k hk
  last := hlast

/-- A step with one call.  A file it creates is above all others, and is claimed
or of the writer that claimed last. -/
theorem Shared.Orderly.called (h : s.Orderly) (hsound : s.Sound d) (hp : s.writers i = some p)
    (hs : (s.sees p).Steps B p') (hturn : s.TurnOf B i p) {c : FsCall}
    (hcalls : p'.world.calls = p.world.calls ++ [c])
    (hnames : ∀ m, m ∈ p'.world.dir.names ↔ m ∈ s.dir.names ∨ m = c.number)
    (hnew : c.number ∈ s.dir.names ∨ c.creates s.dir = true ∧
      (∀ j < c.number, j ∈ s.dir.names) ∧
      (c = .openExcl c.number ∨ ∃ m, lastClaim s.ops = some (i, m))) :
    (s.move i p p').Orderly := by
  have hops : (s.move i p p').ops = s.ops ++ [⟨i, c, c.creates s.dir⟩] := Shared.move_ops hcalls
  refine h.move hsound hp hs hturn (fun m hm => (hnames m).mpr (.inl hm)) ?_ ?_
  · intro k hk j hj
    refine (hnames j).mpr (.inl ?_)
    rcases (hnames k).mp hk with hk | rfl
    · exact h.gapless k hk j hj
    · exact hnew.elim (fun hmem => h.gapless _ hmem j hj) fun hnew => hnew.2.1 j hj
  · intro j n hclaim k hk hle
    rw [hops, lastClaim_concat] at hclaim
    rw [hops]
    split at hclaim
    next hop =>
      cases hclaim
      have hcr : c.creates s.dir = true := by
        cases c <;> simp_all [FileOp.claims]
      -- The claimed number was the first free one, so no file is above it.
      rcases (hnames k).mp hk with hk | rfl
      · rcases Nat.eq_or_lt_of_le hle with rfl | hlt
        · exact absurd hk (FsCall.not_mem_of_creates hcr)
        · exact absurd (h.gapless k hk _ hlt) (FsCall.not_mem_of_creates hcr)
      · exact creator_of_creates hsound.files hcr
    next hop =>
      by_cases hmem : k ∈ s.dir.names
      · exact creator_mono (h.last j n hclaim k hmem hle) _
      · obtain rfl := ((hnames k).mp hk).resolve_left hmem
        obtain ⟨hcr, -, hexcl | ⟨m, hm⟩⟩ := hnew.resolve_left hmem
        · rw [hexcl] at hcr hop
          exact absurd hcr hop
        · cases hclaim.symm.trans hm
          exact creator_of_creates hsound.files hcr

theorem Shared.Orderly.moved (h : s.Orderly) (hsound : s.Sound d) (hp : s.writers i = some p)
    (hs : (s.sees p).Steps B p') (hturn : s.TurnOf B i p) : (s.move i p p').Orderly := by
  cases hs.moved with
  | quiet _ _ _ hsame _ =>
      have hdir : p'.world.dir = s.dir := hsame.dir
      have hops : (s.move i p p').ops = s.ops := Shared.move_ops_quiet hsame.calls
      refine h.move hsound hp hs hturn ?_ ?_ ?_
      · rw [hdir]
        exact fun _ => id
      · rw [hdir]
        exact h.gapless
      · rw [hdir, hops]
        exact h.last
  | taken _ _ hhas hdir hcalls =>
      have hmem : p.impl.enumerator ∈ s.dir.names := of_decide_eq_true hhas
      have hdir : p'.world.dir = s.dir := hdir
      refine h.called hsound hp hs hturn hcalls (fun m => ?_) (.inl hmem)
      rw [hdir]
      exact (or_iff_left_of_imp (· ▸ hmem)).symm
  | claimed hc _ hhas hdir hcalls _ =>
      have hhas : s.dir.has p.impl.enumerator = false := hhas
      have hdir : p'.world.dir = s.dir.openEmpty p.impl.enumerator := hdir
      refine h.called hsound hp hs hturn hcalls (fun m => ?_) (.inr ⟨?_, ?_, .inl rfl⟩)
      · rw [hdir]
        exact mem_names_openEmpty
      · simp [FsCall.creates, hhas]
      · exact h.below i p hp (.inl hc)
  | opened ho hdir hcalls _ =>
      have ho : p.opens B = some p.impl.enumerator := ho
      have hdir : p'.world.dir = s.dir.openEmpty p.impl.enumerator := hdir
      refine h.called hsound hp hs hturn hcalls (fun m => ?_) ?_
      · rw [hdir]
        exact mem_names_openEmpty
      · cases hhas : s.dir.has p.impl.enumerator with
        | true => exact .inl (of_decide_eq_true hhas)
        | false =>
            refine .inr ⟨by simp [FsCall.creates, hhas],
              h.below i p hp (Party.counts_of_opens ho), .inr ?_⟩
            rcases hturn _ ho with hlast | ⟨m, -, hclaim⟩
            · -- The file of the first fragment is there since the claim.
              have hcr := ((hsound.writers i p hp).claimed (not_claiming_of_opens ho) _ hlast).2
              have hmem := (hsound.files.created _ _ hcr).1
              exact absurd hmem (of_decide_eq_false hhas)
            · exact ⟨m, hclaim⟩
  | written hw _ hdir hcalls =>
      have hdir : p'.world.dir = s.dir.put p.impl.enumerator _ := hdir
      have hmem := hsound.mem_of_writing hp hw
      refine h.called hsound hp hs hturn hcalls (fun m => ?_) (.inl hmem)
      rw [hdir]
      exact (or_iff_left_of_imp (· ▸ hmem)).symm

/-! ## Runs -/

theorem Shared.Sound.enter (h : s.Sound d) (i : Nat) (impl : WriterImpl) (w : World) :
    (s.enter i impl w).Sound d where
  files := h.files
  writers j q hq := by
    change Function.update s.writers i _ j = some q at hq
    rw [Function.update_apply] at hq
    split at hq
    next =>
      cases hq
      exact .enter impl w
    next => exact h.writers j q hq

theorem Shared.Orderly.enter (h : s.Orderly) (i : Nat) {impl : WriterImpl} (w : World)
    (hbelow : impl.mmapped = true ∧ impl.buffer.isSome = true →
      ∀ k < impl.enumerator, k ∈ s.dir.names) : (s.enter i impl w).Orderly where
  own := h.own
  gapless := h.gapless
  below j q hq hc := by
    change Function.update s.writers i _ j = some q at hq
    rw [Function.update_apply] at hq
    split at hq
    next =>
      cases hq
      exact hbelow (hc.of_rest rfl)
    next => exact h.below j q hq hc
  last := h.last

theorem Shared.Orderly.step (h : s.Orderly) (hsound : s.Sound d) {l : Turn} (hio : l.IoSucceeds)
    (hturn : s.inTurn B l = true) (hs : s.step B l = some s') : s'.Sound d ∧ s'.Orderly := by
  cases l with
  | init i impl tid w =>
      rw [Shared.step] at hs
      split at hs
      next =>
        cases hs
        refine ⟨hsound.enter i _ w, h.enter i w fun hc => ?_⟩
        cases hc.2
      next => cases hs
  | fork i child =>
      rw [Shared.step] at hs
      split at hs
      next impl w hp _ =>
        cases hs
        exact ⟨hsound.enter child impl w, h.enter child w fun hc => h.below i _ hp (.inr hc)⟩
      next => cases hs
  | call i ev =>
      rw [Shared.step] at hs
      split at hs
      next impl w hp =>
        cases hs
        have hsteps : (s.sees ⟨impl, w, .rest⟩).Steps B _ := Party.call_steps ev rfl hio
        exact ⟨(hsound.moved hp hsteps).1,
          h.moved hsound hp hsteps (.of_none (Party.opens_of_rest rfl))⟩
      next => cases hs
  | next i =>
      rw [Shared.step] at hs
      split at hs
      next p hp =>
        cases hs
        have hsteps := Party.next_steps B (hsound.keeps_sees hp).io
        exact ⟨(hsound.moved hp hsteps).1, h.moved hsound hp hsteps (turnOf_next hp hturn)⟩
      next => cases hs

theorem Shared.orderly_start (hd : d.Gapless) : (Shared.start d).Orderly where
  own op hop := by cases hop
  gapless := hd
  below i p hp := by cases hp
  last i n hclaim := by cases hclaim

/-- Any number of writers in any interleaving without a failure on a file, over
files with no number missing.  As long as each writer has flushed its last
fragment before another one claims a file, every flush goes to a file that its
writer created, and the files of the start stay as they are. -/
theorem flushes_own_files (B : Build) {d : Dir} (hd : d.Gapless) {ls : List Turn} {s : Shared}
    (hio : ∀ l ∈ ls, l.IoSucceeds)
    (hturn : Machine.along (Shared.step B) (Shared.inTurn B) (Shared.start d) ls = true)
    (hrun : Machine.run (Shared.step B) (Shared.start d) ls = some s) : s.Undisturbed d := by
  have hinv : s.Sound d ∧ s.Orderly :=
    Machine.invariant_of_along (I := fun s => s.Sound d ∧ s.Orderly) hrun hio hturn
      ⟨Shared.sound_start d, Shared.orderly_start hd⟩ fun _ _ _ h hl ht hs => h.2.step h.1 hl ht hs
  exact hinv.1.undisturbed hinv.2.own

end

/-! ## Two writers -/

instance (ops : List FileOp) : Decidable (Shared.OwnFlushes ops) :=
  inferInstanceAs (Decidable (∀ op ∈ ops, _ → _))

theorem ioSucceeds_default : ({} : Outcomes).IoSucceeds := ⟨fun _ => rfl, rfl, nofun⟩

/-- A reservation of 16 bytes, in fragments of 32.  The second one of a writer
starts a new fragment. -/
def Turn.reserve (i : Nat) : Turn := .call i ⟨{ traceSize := 32 }, {}, .reserve 16⟩

def Turn.fini (i : Nat) : Turn := .call i ⟨{ traceSize := 32 }, {}, .fini⟩

/-- A writer fills two fragments, and the next one starts after its end. -/
def successiveRuns : List Turn :=
  [.init 0 {} 5 {}, .reserve 0, .next 0, .reserve 0, .next 0, .next 0, .fini 0, .next 0, .next 0,
    .init 1 {} 5 {}, .reserve 1, .next 1, .next 1, .next 1, .reserve 1, .next 1, .next 1, .fini 1,
    .next 1, .next 1]

theorem flushes_own_files_successive :
    ∃ s, Machine.run (Shared.step literalBuild) (.start {}) successiveRuns = some s ∧
      s.dir.names = [0, 1, 2, 3] ∧ s.Undisturbed {} := by
  have hrun : (Machine.run (Shared.step literalBuild) (.start {}) successiveRuns).map
      (fun s => s.dir.names) = some [0, 1, 2, 3] := by decide +kernel
  obtain ⟨s, hs, hnames⟩ := Option.map_eq_some_iff.mp hrun
  have hempty : ({} : Dir).Gapless := fun k hk => by cases hk
  refine ⟨s, hs, hnames, flushes_own_files literalBuild hempty ?_ (by decide +kernel) hs⟩
  simp [successiveRuns, Turn.reserve, Turn.fini, Turn.IoSucceeds, ioSucceeds_default]

/-- The writer 0 claims the file 0, the writer 1 the file 1.  Then the writer 0
goes on to its second fragment. -/
def twoWriters : List Turn :=
  [.init 0 {} 5 {}, .reserve 0, .next 0, .init 1 {} 5 {}, .reserve 1, .next 1, .next 1,
    .reserve 0, .next 0, .next 0, .fini 0, .next 0, .next 0]

/-- A run that left the file 1, and not the file 0. -/
def holedDir : Dir := { names := [1], content := fun _ => [7] }

def overHole : List Turn :=
  [.init 0 {} 5 {}, .reserve 0, .next 0, .reserve 0, .next 0, .next 0, .fini 0, .next 0, .next 0]

/-- The child ends with the fragment it has from its parent. -/
def forkedWriter : List Turn :=
  [.init 0 {} 5 {}, .reserve 0, .next 0, .fork 0 1, .fini 1, .next 1, .next 1]

/-- A run with a flush that is not to a file of its writer. -/
theorem disturbed_of_run {d : Dir} {ls : List Turn}
    (hrun : (Machine.run (Shared.step literalBuild) (.start d) ls).map
      (fun s => decide (Shared.OwnFlushes s.ops)) = some false) :
    ∃ s, Machine.run (Shared.step literalBuild) (.start d) ls = some s ∧ ¬ s.Undisturbed d := by
  obtain ⟨s, hs, hown⟩ := Option.map_eq_some_iff.mp hrun
  exact ⟨s, hs, fun hund => of_decide_eq_false hown hund.own⟩

/-- The second fragment of the writer 0 goes to the file that the writer 1
created, or to the one that was there.  The fragment of a child goes to the file
its parent created. -/
theorem later_fragment_overwrites :
    (∀ ls ∈ [twoWriters, overHole, forkedWriter], ∀ l ∈ ls, l.IoSucceeds) ∧
      (∃ s, Machine.run (Shared.step literalBuild) (.start {}) twoWriters = some s ∧
        ¬ s.Undisturbed {}) ∧
      (∃ s, Machine.run (Shared.step literalBuild) (.start holedDir) overHole = some s ∧
        ¬ s.Undisturbed holedDir) ∧
      ∃ s, Machine.run (Shared.step literalBuild) (.start {}) forkedWriter = some s ∧
        ¬ s.Undisturbed {} := by
  refine ⟨?_, disturbed_of_run (by decide +kernel), disturbed_of_run (by decide +kernel),
    disturbed_of_run (by decide +kernel)⟩
  simp [twoWriters, overHole, forkedWriter, Turn.reserve, Turn.fini, Turn.IoSucceeds,
    ioSucceeds_default]

end Coldtrace
