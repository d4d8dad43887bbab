import Mathlib.Logic.Function.Basic
import Mathlib.Tactic.Common
import Coldtrace.Lib.Machine
import Coldtrace.Lib.FileTree
import Coldtrace.Procmaps
import Coldtrace.MappedCopies

/-!
# The mapped files are copied once

The subscribers of `procmaps.c`.  Each thread publishes an event when it starts and
one when it ends, and the handler of either may have to copy the mapped files.  The
main thread does not when it starts, since that is too early to find much.  A lock
and the flag `maps_copied_` make sure that the copy is made once.

A step of the machine is a statement of one thread, so the handlers interleave in
any way, and any number of threads wait for the lock.  The copy itself is one step.
Between two steps the rest of the program may change the volume.  The flag is set
before the copy begins, but a handler that finds it set waited for the lock.  So
when a handler returns that had to see to the copy, the copy is complete
(`copied_once`).
-/

namespace Coldtrace

open FileTree CString
open Decimal (ascii)

/-! ## The handlers -/

/-- The events. -/
inductive SelfEvent where
  /-- `EVENT_SELF_INIT`.  `main` says whether the thread is `MAIN_THREAD`. -/
  | init (main : Bool)
  /-- `EVENT_SELF_FINI`. -/
  | fini
deriving DecidableEq, Repr

/-- The handler has nothing to do. -/
def SelfEvent.early : SelfEvent → Bool
  | .init main => main
  | .fini => false

theorem SelfEvent.early_iff {ev : SelfEvent} : ev.early = true ↔ ev = .init true := by
  cases ev with
  | init main => rw [early, SelfEvent.init.injEq]
  | fini => exact iff_of_false Bool.false_ne_true SelfEvent.noConfusion

/-- Where a thread is in its handler. -/
inductive HandlerPc where
  | out
  /-- At `caslock_acquire`. -/
  | acquire (ev : SelfEvent)
  /-- At the test of the flag. -/
  | test (ev : SelfEvent)
  /-- In `copy_maps_and_mapped_files_`, after the flag is set. -/
  | copy (ev : SelfEvent)
  /-- At `caslock_release`. -/
  | release (ev : SelfEvent)
deriving DecidableEq, Repr

/-- The thread has the lock. -/
def HandlerPc.Holds : HandlerPc → Prop
  | .test _ | .copy _ | .release _ => True
  | .out | .acquire _ => False

/-- The variables of `procmaps.c`, the threads, the volume, the events whose handlers
returned, and what was copied: the volume before and after. -/
structure Copier where
  lock : Bool := false
  mapsCopied : Bool
  pc : Nat → HandlerPc := fun _ => .out
  volume : Volume
  returned : List SelfEvent := []
  copies : List (Volume × Volume) := []

/-- `DICE_MODULE_INIT`, where `disabled` says that `COLDTRACE_DISABLE_COPY` is set. -/
def Copier.start (disabled : Bool) (v : Volume) : Copier := { mapsCopied := disabled, volume := v }

/-- What happens next. -/
inductive CopierStep where
  /-- A thread publishes an event. -/
  | publish (tid : Nat) (ev : SelfEvent)
  /-- A thread makes the next step of its handler. -/
  | go (tid : Nat)
  /-- The program does something else. -/
  | other (v : Volume)

section

variable (o : FileTree.Outcomes) (cwd : Location) (pid : Nat) (path : List UInt8)

/-- A step of the machine.  A handler waits while the lock is taken. -/
def Copier.step (s : Copier) : CopierStep → Option Copier
  | .publish tid ev =>
      match s.pc tid with
      | .out => some { s with pc := Function.update s.pc tid (.acquire ev) }
      | _ => none
  | .go tid =>
      match s.pc tid with
      | .out => none
      | .acquire ev =>
          if s.lock then none
          else some { s with lock := true, pc := Function.update s.pc tid (.test ev) }
      | .test ev =>
          if s.mapsCopied || ev.early then
            some { s with pc := Function.update s.pc tid (.release ev) }
          else some { s with mapsCopied := true, pc := Function.update s.pc tid (.copy ev) }
      | .copy ev =>
          match copyMapsAndMappedFiles o cwd pid s.volume path with
          | none => none
          | some v =>
              some { s with
                pc := Function.update s.pc tid (.release ev)
                volume := v
                copies := s.copies ++ [(s.volume, v)] }
      | .release ev =>
          some { s with
            lock := false
            pc := Function.update s.pc tid .out
            returned := s.returned ++ [ev] }
  | .other v => some { s with volume := v }

/-- The states of the runs. -/
def Copier.Reached (disabled : Bool) (v : Volume) (s : Copier) : Prop :=
  Machine.Reach (Copier.step o cwd pid path) (fun _ => True) (Copier.start disabled v) s

end

/-! ## The moves -/

section

variable {o : FileTree.Outcomes} {cwd : Location} {pid : Nat} {path : List UInt8}
  {s s' : Copier} {disabled : Bool}

variable (o cwd pid path) in
/-- The moves of the machine, with their guards. -/
inductive Copier.Move (s : Copier) : Copier → Prop where
  | publish {tid : Nat} (ev : SelfEvent) : s.pc tid = .out →
      Move s { s with pc := Function.update s.pc tid (.acquire ev) }
  | acquire {tid : Nat} {ev : SelfEvent} : s.pc tid = .acquire ev → s.lock = false →
      Move s { s with lock := true, pc := Function.update s.pc tid (.test ev) }
  | pass {tid : Nat} {ev : SelfEvent} : s.pc tid = .test ev →
      (s.mapsCopied = false → ev.early = true) →
      Move s { s with pc := Function.update s.pc tid (.release ev) }
  | mark {tid : Nat} {ev : SelfEvent} : s.pc tid = .test ev → s.mapsCopied = false →
      Move s { s with mapsCopied := true, pc := Function.update s.pc tid (.copy ev) }
  | copy {tid : Nat} {ev : SelfEvent} {v : Volume} : s.pc tid = .copy ev →
      copyMapsAndMappedFiles o cwd pid s.volume path = some v →
      Move s { s with
        pc := Function.update s.pc tid (.release ev)
        volume := v
        copies := s.copies ++ [(s.volume, v)] }
  | release {tid : Nat} {ev : SelfEvent} : s.pc tid = .release ev →
      Move s { s with
        lock := false
        pc := Function.update s.pc tid .out
        returned := s.returned ++ [ev] }
  | other (v : Volume) : Move s { s with volume := v }

theorem Copier.move_of_step {l : CopierStep} (h : s.step o cwd pid path l = some s') :
    s.Move o cwd pid path s' := by
  cases l with
  | publish tid ev =>
      rw [Copier.step] at h
      split at h
      next hpc =>
        cases h
        exact .publish ev hpc
      next => cases h
  | go tid =>
      rw [Copier.step] at h
      split at h
      next => cases h
      next ev hpc =>
        split at h
        next => cases h
        next hlock =>
          cases h
          exact .acquire hpc (Bool.eq_false_iff.mpr hlock)
      next ev hpc =>
        split at h
        next hpass =>
          cases h
          refine .pass hpc fun hflag => ?_
          rwa [hflag, Bool.false_or] at hpass
        next hmark =>
          cases h
          rw [Bool.or_eq_true, not_or] at hmark
          exact .mark hpc (Bool.eq_false_iff.mpr hmark.1)
      next ev hpc =>
        split at h
        next => cases h
        next v hcopy =>
          cases h
          exact .copy hpc hcopy
      next ev hpc =>
        cases h
        exact .release hpc
  | other v =>
      cases h
      exact .other v

/-! ## The lock -/

/-- The lock is taken exactly while a thread holds it, and one thread holds it. -/
structure Copier.Locked (s : Copier) : Prop where
  one : ∀ tid tid', (s.pc tid).Holds → (s.pc tid').Holds → tid = tid'
  taken : s.lock = true ↔ ∃ tid, (s.pc tid).Holds

/-- A thread that moves on with what it holds. -/
theorem holds_update {pc : Nat → HandlerPc} {tid : Nat} {p : HandlerPc}
    (h : p.Holds ↔ (pc tid).Holds) (tid' : Nat) :
    (Function.update pc tid p tid').Holds ↔ (pc tid').Holds := by
  obtain rfl | hne := eq_or_ne tid' tid
  · rwa [Function.update_self]
  · rw [Function.update_of_ne hne]

theorem Copier.Locked.congr (h : s.Locked) (hlock : s'.lock = s.lock)
    (hpc : ∀ tid, (s'.pc tid).Holds ↔ (s.pc tid).Holds) : s'.Locked where
  one tid tid' := by
    rw [hpc, hpc]
    exact h.one tid tid'
  taken := by
    rw [hlock, h.taken]
    exact exists_congr fun tid => (hpc tid).symm

theorem Copier.Locked.move (h : s.Locked) (hm : s.Move o cwd pid path s') : s'.Locked := by
  cases hm with
  | publish ev hpc => exact h.congr rfl (holds_update (by rw [hpc]; rfl))
  | @acquire tid ev hpc hlock =>
      have hfree : ∀ tid', ¬ (s.pc tid').Holds := fun tid' hholds =>
        Bool.false_ne_true (hlock.symm.trans (h.taken.mpr ⟨tid', hholds⟩))
      have honly : ∀ tid', (Function.update s.pc tid (.test ev) tid').Holds → tid' = tid := by
        intro tid' hholds
        by_contra hne
        rw [Function.update_of_ne hne] at hholds
        exact hfree tid' hholds
      refine ⟨fun a b ha hb => (honly a ha).trans (honly b hb).symm, ?_⟩
      have hself : (Function.update s.pc tid (.test ev) tid).Holds := by
        rw [Function.update_self]
        trivial
      exact iff_of_true rfl ⟨tid, hself⟩
  | pass hpc _ => exact h.congr rfl (holds_update (by rw [hpc]; rfl))
  | mark hpc _ => exact h.congr rfl (holds_update (by rw [hpc]; rfl))
  | copy hpc _ => exact h.congr rfl (holds_update (by rw [hpc]; rfl))
  | @release tid ev hpc =>
      have hnone : ∀ tid', ¬ (Function.update s.pc tid .out tid').Holds := by
        rw [Function.forall_update_iff s.pc fun _ p => ¬ HandlerPc.Holds p]
        refine ⟨id, fun tid' hne hholds => hne ?_⟩
        exact h.one tid' tid hholds (by rw [hpc]; trivial)
      refine ⟨fun a _ ha => absurd ha (hnone a), ?_⟩
      exact iff_of_false Bool.false_ne_true fun ⟨tid', hholds⟩ => hnone tid' hholds
  | other v => exact h.congr rfl fun _ => Iff.rfl

/-! ## The copy -/

/-- Before the copy a handler passes the test only if it has nothing to do. -/
def HandlerPc.Before : HandlerPc → Prop
  | .copy _ => False
  | .release ev => ev.early = true
  | .out | .acquire _ | .test _ => True

/-- The thread is not in the copy. -/
def HandlerPc.Quiet : HandlerPc → Prop
  | .copy _ => False
  | .out | .acquire _ | .test _ | .release _ => True

variable (o cwd pid path) in
/-- What was copied, when the copy is over. -/
def Copier.Made (disabled : Bool) (copies : List (Volume × Volume)) : Prop :=
  if disabled then copies = []
  else ∃ v v', copies = [(v, v')] ∧ copyMapsAndMappedFiles o cwd pid v path = some v'

variable (o cwd pid path) in
/-- A run has three phases. -/
inductive Copier.Phase (disabled : Bool) (s : Copier) : Prop where
  | before (hon : disabled = false) (hflag : s.mapsCopied = false) (hnone : s.copies = [])
      (hpc : ∀ tid, (s.pc tid).Before) (hret : ∀ ev ∈ s.returned, ev.early = true)
  | during (hon : disabled = false) (hflag : s.mapsCopied = true) (hnone : s.copies = [])
      (tid : Nat) (ev : SelfEvent) (hpc : s.pc tid = .copy ev)
      (hret : ∀ ev ∈ s.returned, ev.early = true)
  | after (hflag : s.mapsCopied = true) (hpc : ∀ tid, (s.pc tid).Quiet)
      (hmade : Made o cwd pid path disabled s.copies)

/-- In the copy no other thread has the lock. -/
theorem Copier.Locked.copying (h : s.Locked) {tid tid' : Nat} {ev : SelfEvent}
    (hpc : s.pc tid = .copy ev) (hholds : (s.pc tid').Holds) : s.pc tid' = .copy ev := by
  rw [← hpc, h.one tid' tid hholds (by rw [hpc]; trivial)]

/-- A change of one thread, in a phase that says the same of each thread. -/
theorem forall_pc {P : HandlerPc → Prop} {pc : Nat → HandlerPc} (h : ∀ tid, P (pc tid)) (tid : Nat)
    {p : HandlerPc} (hp : P p) (tid' : Nat) : P (Function.update pc tid p tid') :=
  (Function.forall_update_iff pc fun _ p => P p).mpr ⟨hp, fun tid' _ => h tid'⟩ tid'

theorem Copier.Phase.before_move (hon : disabled = false) (hflag : s.mapsCopied = false)
    (hnone : s.copies = []) (hpc : ∀ tid, (s.pc tid).Before)
    (hret : ∀ ev ∈ s.returned, ev.early = true) (hm : s.Move o cwd pid path s') :
    s'.Phase o cwd pid path disabled := by
  cases hm with
  | @publish tid ev _ => exact .before hon hflag hnone (forall_pc hpc tid trivial) hret
  | @acquire tid ev _ _ => exact .before hon hflag hnone (forall_pc hpc tid trivial) hret
  | @pass tid ev _ hpass => exact .before hon hflag hnone (forall_pc hpc tid (hpass hflag)) hret
  | @mark tid ev _ _ => exact .during hon rfl hnone tid ev (Function.update_self ..) hret
  | @copy tid ev v hat _ =>
      have hbefore := hpc tid
      rw [hat] at hbefore
      exact hbefore.elim
  | @release tid ev hat =>
      have hearly := hpc tid
      rw [hat] at hearly
      refine .before hon hflag hnone (forall_pc hpc tid trivial) fun ev' hev => ?_
      obtain hev | hev := List.mem_append.mp hev
      · exact hret ev' hev
      · rw [List.mem_singleton.mp hev]
        exact hearly
  | other v => exact .before hon hflag hnone hpc hret

/-- While a thread copies, the others only come to the lock. -/
theorem Copier.Phase.during_move (hl : s.Locked) (hon : disabled = false)
    (hflag : s.mapsCopied = true) (hnone : s.copies = []) {tid : Nat} {ev : SelfEvent}
    (hpc : s.pc tid = .copy ev) (hret : ∀ ev ∈ s.returned, ev.early = true)
    (hm : s.Move o cwd pid path s') : s'.Phase o cwd pid path disabled := by
  have hother : ∀ {tid' : Nat} {p : HandlerPc}, s.pc tid' = p → p.Holds → p = .copy ev :=
    fun hat hholds => hat.symm.trans (hl.copying hpc (hat ▸ hholds))
  cases hm with
  | @publish tid' ev' hat =>
      refine .during hon hflag hnone tid ev ?_ hret
      have hne : tid ≠ tid' := by
        rintro rfl
        rw [hpc] at hat
        cases hat
      exact (Function.update_of_ne hne ..).trans hpc
  | acquire _ hlock =>
      have htaken := hl.taken.mpr ⟨tid, by rw [hpc]; trivial⟩
      rw [hlock] at htaken
      cases htaken
  | pass hat _ => cases hother hat trivial
  | mark hat _ => cases hother hat trivial
  | @copy tid' ev' v hat hcopy =>
      refine .after hflag ?_ ?_
      · refine (Function.forall_update_iff s.pc fun _ p => HandlerPc.Quiet p).mpr
          ⟨trivial, fun other hne => ?_⟩
        cases hat' : s.pc other with
        | copy ev'' =>
            refine hne (hl.one other tid' ?_ ?_)
            · rw [hat']
              trivial
            · rw [hat]
              trivial
        | out | acquire _ | test _ | release _ => trivial
      · rw [Made, if_neg (Bool.eq_false_iff.mp hon)]
        refine ⟨s.volume, v, ?_, hcopy⟩
        change s.copies ++ _ = _
        rw [hnone, List.nil_append]
  | release hat => cases hother hat trivial
  | other v => exact .during hon hflag hnone tid ev hpc hret

theorem Copier.Phase.after_move (hflag : s.mapsCopied = true) (hpc : ∀ tid, (s.pc tid).Quiet)
    (hmade : Made o cwd pid path disabled s.copies) (hm : s.Move o cwd pid path s') :
    s'.Phase o cwd pid path disabled := by
  cases hm with
  | @publish tid ev _ => exact .after hflag (forall_pc hpc tid trivial) hmade
  | @acquire tid ev _ _ => exact .after hflag (forall_pc hpc tid trivial) hmade
  | @pass tid ev _ _ => exact .after hflag (forall_pc hpc tid trivial) hmade
  | mark _ hunset =>
      rw [hflag] at hunset
      cases hunset
  | @copy tid ev v hat _ =>
      have hquiet := hpc tid
      rw [hat] at hquiet
      exact hquiet.elim
  | @release tid ev _ => exact .after hflag (forall_pc hpc tid trivial) hmade
  | other v => exact .after hflag hpc hmade

theorem Copier.Phase.move (h : s.Phase o cwd pid path disabled) (hl : s.Locked)
    (hm : s.Move o cwd pid path s') : s'.Phase o cwd pid path disabled := by
  cases h with
  | before hon hflag hnone hpc hret => exact before_move hon hflag hnone hpc hret hm
  | during hon hflag hnone tid ev hpc hret => exact during_move hl hon hflag hnone hpc hret hm
  | after hflag hpc hmade => exact after_move hflag hpc hmade hm

theorem Copier.Phase.start (disabled : Bool) (v : Volume) :
    (Copier.start disabled v).Phase o cwd pid path disabled := by
  cases disabled with
  | false => exact .before rfl rfl rfl (fun _ => trivial) fun ev hev => absurd hev List.not_mem_nil
  | true => exact .after rfl (fun _ => trivial) rfl

theorem Copier.Locked.start (disabled : Bool) (v : Volume) : (Copier.start disabled v).Locked where
  one _ _ h := h.elim
  taken := iff_of_false Bool.false_ne_true fun ⟨_, h⟩ => h

theorem Copier.Reached.phase {v : Volume} (h : Copier.Reached o cwd pid path disabled v s) :
    s.Locked ∧ s.Phase o cwd pid path disabled := by
  refine Machine.Reach.invariant (I := fun s => s.Locked ∧ s.Phase o cwd pid path disabled) h
    ⟨.start disabled v, .start disabled v⟩ ?_
  rintro s s' l ⟨hl, hp⟩ - hstep
  have hm := move_of_step hstep
  exact ⟨hl.move hm, hp.move hl hm⟩

end

/-- In every run one thread at a time has the lock, which is free when none has, and
the mapped files are copied at most once, and not at all if the copy is disabled.  When
a handler has returned, other than the one of the start of the main thread, the copy
is complete. -/
theorem copied_once (o : FileTree.Outcomes) (cwd : Location) (pid : Nat) (path : List UInt8)
    (disabled : Bool) (v : Volume) {s : Copier} (h : Copier.Reached o cwd pid path disabled v s) :
    (∀ tid tid', (s.pc tid).Holds → (s.pc tid').Holds → tid = tid') ∧
      (s.lock = true ↔ ∃ tid, (s.pc tid).Holds) ∧
      (s.copies = [] ∨ ∃ v v', s.copies = [(v, v')] ∧
        copyMapsAndMappedFiles o cwd pid v path = some v') ∧
      (disabled = true → s.copies = []) ∧
      (disabled = false → ∀ ev ∈ s.returned, ev ≠ .init true → s.copies.length = 1) := by
  obtain ⟨hl, hphase⟩ := h.phase
  refine ⟨hl.one, hl.taken, ?_⟩
  cases hphase with
  | before hon hflag hnone hpc hret =>
      exact ⟨.inl hnone, fun _ => hnone,
        fun _ ev hev hne => absurd (SelfEvent.early_iff.mp (hret ev hev)) hne⟩
  | during hon hflag hnone tid ev hpc hret =>
      exact ⟨.inl hnone, fun _ => hnone,
        fun _ ev hev hne => absurd (SelfEvent.early_iff.mp (hret ev hev)) hne⟩
  | after hflag hpc hmade =>
      cases disabled with
      | false =>
          obtain ⟨v, v', hcopies, hcopy⟩ := hmade
          refine ⟨.inr ⟨v, v', hcopies, hcopy⟩, fun hoff => ?_, fun _ _ _ _ => ?_⟩
          · cases hoff
          · rw [hcopies]
            rfl
      | true =>
          refine ⟨.inl hmade, fun _ => hmade, fun hon => ?_⟩
          cases hon

/-- Two threads race: the second waits until the first has copied. -/
theorem copied_once_race :
    ∃ s, Copier.Reached {} [] 7 (ascii "/t") false libraryVolume s ∧
      s.returned = [.init false, .fini] ∧ s.copies.length = 1 := by
  let labels : List CopierStep :=
    [.publish 2 (.init false), .publish 1 .fini, .go 2, .go 2, .go 2, .go 2, .go 1, .go 1, .go 1]
  have hreturned : (Machine.run (Copier.step {} [] 7 (ascii "/t"))
      (Copier.start false libraryVolume) labels).map Copier.returned =
      some [.init false, .fini] := by decide
  obtain ⟨s, hrun, hret⟩ := Option.map_eq_some_iff.mp hreturned
  have hreach : Copier.Reached {} [] 7 (ascii "/t") false libraryVolume s :=
    Machine.Reach.of_run .start (fun _ _ => trivial) hrun
  have honce := copied_once {} [] 7 (ascii "/t") false libraryVolume hreach
  refine ⟨s, hreach, hret, honce.2.2.2.2 rfl .fini ?_ (by decide)⟩
  rw [hret]
  decide

end Coldtrace
