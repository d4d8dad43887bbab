import Mathlib.Logic.Function.Basic
import Mathlib.Tactic.Common
import Coldtrace.Indexes

/-!
# Calls

An intercepted call is three steps of its thread: the subscribers before it, the
call, and the subscribers after it.  The steps of all threads interleave.

A `Runtime` is the program and the libraries around the tracer, as far as a
result is about them.  It says when a thread makes a call, what the call does
and what it returns, and it sees the entries that the subscribers append.  It
answers for some of the calls and events only.  The other publications are free:
any thread makes them at any time, also inside a call.

`Move` is one step of a thread, and `Moved` has a constructor for each kind of
step.
-/

namespace Coldtrace

/-! ## What any publication does -/

/-- The tracer after a publication, unless it waits for an area. -/
def Publication.publish (t : Tracer) : Publication → Option Tracer
  | .before tid c ok => t.before tid ok c
  | .after tid c r ok => some (t.after tid ok c r)
  | .event tid o ok => some (t.event tid ok o)

/-- The types of the entries that the subscribers of a call append. -/
def Call.types : Call → List EntryType
  | .threadCreate => [.threadCreate]
  | .threadJoin _ => [.threadJoin]
  | .mutexLock _ | .mutexTrylock _ | .mutexTimedlock _ | .mutexClocklock _ => [.lockAcquire]
  | .mutexUnlock _ => [.lockRelease]
  | .condWait _ | .condTimedwait _ | .condClockwait _ => [.lockRelease, .lockAcquire]
  | .rwlockRdlock _ | .rwlockTryrdlock _ | .rwlockTimedrdlock _ => [.rwLockAcqShr]
  | .rwlockWrlock _ | .rwlockTrywrlock _ | .rwlockTimedwrlock _ => [.rwLockAcqExc]
  | .rwlockUnlock _ => [.rwLockRel]
  | .spinLock _ | .spinTrylock _ => [.lockAcquire]
  | .spinUnlock _ => [.lockRelease]
  | .semWait _ | .semTrywait _ | .semTimedwait _ => [.lockAcquire]
  | .semPost _ => [.lockRelease]
  | .cxaGuardAcquire _ => [.cxaGuardAcquire]
  | .cxaGuardRelease _ | .cxaGuardAbort _ => [.cxaGuardRelease]
  | .malloc .. | .calloc .. | .posixMemalign .. | .alignedAlloc .. => [.alloc]
  | .realloc .. => [.free, .alloc]
  | .free .. => [.free]
  | .mmap .. => [.mmap]
  | .munmap .. => [.munmap]
  | .memcpy .. | .memmove .. => [.read, .write]
  | .memset .. => [.write]
  | .aread .. => [.atomicRead]
  | .awrite .. => [.atomicWrite]
  | .rmw .. | .xchg .. | .cmpxchg .. => [.atomicRead, .atomicWrite]
  | .fence _ => [.fence]

/-- The types of the entries that the subscribers of an event append. -/
def Occurrence.types : Occurrence → List EntryType
  | .threadStart .. => [.threadStart]
  | .threadExit _ | .selfFini .. => [.threadExit]
  | .maRead .. | .maReadRange .. => [.read]
  | .maWrite .. | .maWriteRange .. => [.write]
  | .annotateRwlockCreate _ => [.rwLockCreate]
  | .annotateRwlockDestroy _ => [.rwLockDestroy]
  | .annotateRwlockAcq .. => [.rwLockAcqExc, .rwLockAcqShr]
  | .annotateRwlockRel .. => [.rwLockRelExc, .rwLockRelShr]
  | .testMarker => [.testMarker]

def Publication.types : Publication → List EntryType
  | .before _ c _ | .after _ c _ _ => c.types
  | .event _ o _ => o.types

/-- The entries that a tracer has and an earlier one has not. -/
def Tracer.appended (t t' : Tracer) : List Logged := t'.log.drop t.log.length

theorem Tracer.appended_of_log {t t' : Tracer} {es : List Logged} (h : t'.log = t.log ++ es) :
    t.appended t' = es := by
  rw [Tracer.appended, h, List.drop_left]

@[simp] theorem Tracer.appended_put (t : Tracer) (e : Logged) : t.appended (t.put e) = [e] :=
  Tracer.appended_of_log rfl

@[simp] theorem Tracer.appended_takeAtomic (t : Tracer) (e : Logged) :
    t.appended (t.takeAtomic.put e) = [e] :=
  Tracer.appended_of_log rfl

@[simp] theorem Tracer.appended_takeAlloc (t : Tracer) (e : Logged) :
    t.appended (t.takeAlloc.put e) = [e] :=
  Tracer.appended_of_log rfl

theorem Tracer.logAtomic_ok {b : Bool} (h : b = true) (t : Tracer) (e : Logged) :
    t.logAtomic b e = t.takeAtomic.put { e with index := t.nextAtomicIndex } := if_pos h

theorem Tracer.logAlloc_ok {b : Bool} (h : b = true) (t : Tracer) (e : Logged) :
    t.logAlloc b e = t.takeAlloc.put { e with index := t.nextAllocIndex } := if_pos h

/-- The counters do not go back, and entries of some types are appended. -/
structure Tracer.Grows (t t' : Tracer) (types : List EntryType) : Prop where
  log : ∃ es, t'.log = t.log ++ es ∧ ∀ e ∈ es, e.type ∈ types
  atomic : t.nextAtomicIndex ≤ t'.nextAtomicIndex
  alloc : t.nextAllocIndex ≤ t'.nextAllocIndex

section

variable {t t' : Tracer} {md : Nat} {ok : Nat → Bool} {c : Call} {r : Logged}
  {types : List EntryType}

theorem Tracer.Grows.refl (t : Tracer) (types : List EntryType) : t.Grows t types :=
  ⟨⟨[], (List.append_nil _).symm, by simp⟩, Nat.le_refl _, Nat.le_refl _⟩

theorem Tracer.Grows.mem (h : t.Grows t' types) {e : Logged} (he : e ∈ t.log) : e ∈ t'.log := by
  obtain ⟨es, hes, -⟩ := h.log
  rw [hes]
  exact List.mem_append_left _ he

/-- A part of the log with no entry of these types does not change. -/
theorem Tracer.Grows.filter (h : t.Grows t' types) {p : Logged → Bool}
    (hp : ∀ e, e.type ∈ types → p e = false) : t'.log.filter p = t.log.filter p := by
  obtain ⟨es, hes, htypes⟩ := h.log
  rw [hes]
  exact Keyed.filter_append_of_not _ fun e he => hp e (htypes e he)

theorem grows_put {t₁ : Tracer} (hlog : t₁.log = t.log)
    (hatomic : t.nextAtomicIndex ≤ t₁.nextAtomicIndex)
    (halloc : t.nextAllocIndex ≤ t₁.nextAllocIndex) (hr : r.type ∈ types) :
    t.Grows (t₁.put r) types :=
  ⟨⟨[r], by rw [Tracer.put, hlog], by simpa using hr⟩, hatomic, halloc⟩

theorem grows_logEntry {b : Bool} (hr : r.type ∈ types) : t.Grows (t.logEntry b r) types := by
  rw [Tracer.logEntry]
  split
  next => exact grows_put rfl (Nat.le_refl _) (Nat.le_refl _) hr
  next => exact .refl t types

theorem grows_logAtomic {b : Bool} (hr : r.type ∈ types) : t.Grows (t.logAtomic b r) types := by
  rw [Tracer.logAtomic]
  split
  next => exact grows_put rfl (Nat.le_succ _) (Nat.le_refl _) hr
  next => exact .refl t types

theorem grows_logAlloc {b : Bool} (hr : r.type ∈ types) : t.Grows (t.logAlloc b r) types := by
  rw [Tracer.logAlloc]
  split
  next => exact grows_put rfl (Nat.le_refl _) (Nat.le_succ _) hr
  next => exact .refl t types

theorem grows_acquired {res : Result} {type : EntryType} {lock : UInt64} (h : type ∈ types) :
    t.Grows (t.acquired md ok res type lock) types := by
  rw [Tracer.acquired]
  split
  next => exact grows_logAtomic h
  next => exact .refl t types

theorem Fetched.grows {area : Fin 128} (h : Fetched t area t') : t.Grows t' types :=
  ⟨⟨[], by rw [h.log, List.append_nil], by simp⟩, by rw [h.next]; exact Nat.le_succ _,
    Nat.le_of_eq h.nextAlloc.symm⟩

theorem before_grows (h : t.before md ok c = some t') : t.Grows t' c.types := by
  cases c with
  | threadCreate =>
      cases h
      exact ⟨⟨[], (List.append_nil _).symm, by simp⟩, Nat.le_succ _, Nat.le_refl _⟩
  | aread | awrite | rmw | xchg | cmpxchg | fence => exact (fetchStackAcq_spec h).grows
  | realloc | free | munmap =>
      cases h
      exact grows_logAlloc (by simp [Call.types])
  | memcpy | memmove =>
      cases h
      exact grows_logEntry (by simp [Call.types])
  | mutexUnlock | condWait | condTimedwait | condClockwait | rwlockUnlock | spinUnlock | semPost
  | cxaGuardRelease | cxaGuardAbort =>
      cases h
      exact grows_logAtomic (by simp [Call.types])
  | _ =>
      cases h
      exact .refl ..

theorem Call.entries_types {addr : UInt64} (h : c.slot = some addr) (idxA idxB : Nat)
    (res : Result) : ∀ e ∈ c.entries md idxA idxB res, e.type ∈ c.types := by
  cases c with
  | aread | awrite | rmw | xchg | fence => simp [Call.entries, Call.types]
  | cmpxchg => cases hr : res.ok <;> simp [Call.entries, Call.types, hr]
  | _ => cases h

theorem after_slot_grows {addr : UInt64} (h : c.slot = some addr) (res : Result) :
    t.Grows (t.after md ok c res) c.types := by
  obtain ⟨es, hpre, -, hr⟩ := after_slot h t md ok res
  refine ⟨⟨es, hr.log, fun e he => Call.entries_types h _ _ res e (hpre.subset he)⟩, ?_,
    Nat.le_of_eq hr.nextAlloc.symm⟩
  rw [hr.next]
  exact Nat.le_add_right ..

theorem after_grows (res : Result) : t.Grows (t.after md ok c res) c.types := by
  cases c with
  | aread | awrite | rmw | xchg | cmpxchg | fence => exact after_slot_grows rfl res
  | mutexLock | mutexTrylock | mutexTimedlock | mutexClocklock | rwlockRdlock | rwlockTryrdlock
  | rwlockTimedrdlock | rwlockWrlock | rwlockTrywrlock | rwlockTimedwrlock | spinLock | spinTrylock
  | semWait | semTrywait | semTimedwait => exact grows_acquired (by simp [Call.types])
  | threadJoin | condWait | condTimedwait | condClockwait | cxaGuardAcquire =>
      exact grows_logAtomic (by simp [Call.types])
  | malloc | calloc | realloc | alignedAlloc | mmap =>
      exact grows_logAlloc (by simp [Call.types])
  | posixMemalign =>
      rw [Tracer.after]
      split
      next => exact grows_logAlloc (by simp [Call.types])
      next => exact .refl ..
  | threadCreate | memcpy | memmove | memset => exact grows_logEntry (by simp [Call.types])
  | _ => exact .refl ..

theorem event_grows (o : Occurrence) : t.Grows (t.event md ok o) o.types := by
  cases o with
  | selfFini main =>
      cases main with
      | true => exact grows_logAtomic (by simp [Occurrence.types])
      | false => exact .refl ..
  | annotateRwlockAcq lock isW =>
      cases isW <;> exact grows_logAtomic (by simp [Occurrence.types])
  | annotateRwlockRel lock isW =>
      cases isW <;> exact grows_logAtomic (by simp [Occurrence.types])
  | maRead | maWrite | maReadRange | maWriteRange | testMarker =>
      exact grows_logEntry (by simp [Occurrence.types])
  | _ => exact grows_logAtomic (by simp [Occurrence.types])

theorem publish_grows {l : Publication} (h : l.publish t = some t') : t.Grows t' l.types := by
  cases l with
  | before => exact before_grows h
  | after =>
      cases h
      exact after_grows _
  | event =>
      cases h
      exact event_grows _

theorem Published.created (h : Published md t t') : t'.createdThreadIdx = t.createdThreadIdx := by
  cases h <;> rfl

theorem before_created (hc : c ≠ .threadCreate) (h : t.before md ok c = some t') :
    t'.createdThreadIdx = t.createdThreadIdx := by
  cases hp : c.paired with
  | true =>
      obtain ⟨addr, hslot⟩ := (Call.slot_of_paired hp).resolve_left hc
      rw [before_slot hslot] at h
      exact (fetchStackAcq_spec h).created
  | false =>
      obtain ⟨t₁, h₁, hpub⟩ := published_before t md ok hp
      cases h.symm.trans h₁
      exact hpub.created

theorem after_created (res : Result) :
    (t.after md ok c res).createdThreadIdx = t.createdThreadIdx := by
  cases hp : c.paired with
  | true =>
      rcases Call.slot_of_paired hp with rfl | ⟨addr, hslot⟩
      · rw [Tracer.after, Tracer.logEntry]
        split <;> rfl
      · obtain ⟨es, -, -, hr⟩ := after_slot hslot t md ok res
        exact hr.created
  | false => exact (published_after hp res).created

theorem Published.areas (h : Published md t t') : t'.areas = t.areas := by
  cases h <;> rfl

/-- The subscribers of a call without an area use none. -/
theorem before_areas (hc : c.slot = none) (h : t.before md ok c = some t') :
    t'.areas = t.areas := by
  cases hp : c.paired with
  | true =>
      rcases Call.slot_of_paired hp with rfl | ⟨addr, hslot⟩
      · cases h
        rfl
      · cases hc.symm.trans hslot
  | false =>
      obtain ⟨t₁, h₁, hpub⟩ := published_before t md ok hp
      cases h.symm.trans h₁
      exact hpub.areas

theorem after_areas (hc : c.slot = none) (res : Result) :
    (t.after md ok c res).areas = t.areas := by
  cases hp : c.paired with
  | true =>
      rcases Call.slot_of_paired hp with rfl | ⟨addr, hslot⟩
      · rw [Tracer.after, Tracer.logEntry]
        split <;> rfl
      · cases hc.symm.trans hslot
  | false => exact (published_after hp res).areas

/-- Only the first subscriber of a create call writes the slot of its thread. -/
theorem publish_created {l : Publication} (hl : ∀ tid ok, l ≠ .before tid .threadCreate ok)
    (h : l.publish t = some t') : t'.createdThreadIdx = t.createdThreadIdx := by
  cases l with
  | before tid c ok => exact before_created (fun hc => hl tid ok (by rw [hc])) h
  | after =>
      cases h
      exact after_created _
  | event =>
      cases h
      exact (published_event _).created

end

/-! ## Steps of threads -/

/-- A call that a thread has made, and what the call returned once it did. -/
structure Frame where
  call : Call
  result : Option Result := none
deriving DecidableEq, Repr

/-- The part of the program and its libraries with state `ε`.  Inside a call it
takes steps `κ`. -/
structure Runtime (ε κ : Type) where
  /-- The calls and events it answers for. -/
  calls : Call → Bool
  events : Occurrence → Bool
  /-- A thread makes a call.  The runtime sees the tracer before and after the
  subscribers, here and in `leave` and `occurs`. -/
  enter : ε → Tracer → Tracer → Nat → Call → Option ε
  inner : ε → Nat → Call → κ → Option ε
  /-- The call returns. -/
  returns : ε → Nat → Call → Result → Option ε
  leave : ε → Tracer → Tracer → Nat → Call → Result → ε
  occurs : ε → Tracer → Tracer → Nat → Occurrence → Option ε

/-- The runtime does not answer for the publication. -/
def Runtime.Free {ε κ : Type} (R : Runtime ε κ) : Publication → Bool
  | .before _ c _ | .after _ c _ _ => !R.calls c
  | .event _ o _ => !R.events o

inductive Move (κ : Type) where
  | before (tid : Nat) (c : Call) (ok : Nat → Bool)
  | inner (tid : Nat) (k : κ)
  | returns (tid : Nat) (r : Result)
  | after (tid : Nat) (ok : Nat → Bool)
  | event (tid : Nat) (o : Occurrence) (ok : Nat → Bool)
  | other (l : Publication)

/-- Every append of the step succeeds. -/
def Move.Appends {κ : Type} : Move κ → Prop
  | .before _ _ ok | .after _ ok | .event _ _ ok => ∀ k, ok k = true
  | .inner .. | .returns .. => True
  | .other l => l.Appends

/-- The tracer, the runtime, and the call each thread is in. -/
structure Process (ε : Type) where
  tracer : Tracer := {}
  env : ε
  frames : Nat → Option Frame := fun _ => none

namespace Runtime

variable {ε κ : Type} (R : Runtime ε κ)

/-- One step of a thread.  It is not enabled while it waits for an area, or when
the runtime does not make it. -/
def step (s : Process ε) : Move κ → Option (Process ε)
  | .before tid c ok =>
      if R.calls c && (s.frames tid).isNone then
        match s.tracer.before tid ok c with
        | none => none
        | some t =>
            match R.enter s.env s.tracer t tid c with
            | none => none
            | some env => some ⟨t, env, Function.update s.frames tid (some { call := c })⟩
      else none
  | .inner tid k =>
      match s.frames tid with
      | some ⟨c, none⟩ =>
          match R.inner s.env tid c k with
          | none => none
          | some env => some { s with env }
      | _ => none
  | .returns tid r =>
      match s.frames tid with
      | some ⟨c, none⟩ =>
          match R.returns s.env tid c r with
          | none => none
          | some env =>
              some { s with env, frames := Function.update s.frames tid (some ⟨c, some r⟩) }
      | _ => none
  | .after tid ok =>
      match s.frames tid with
      | some ⟨c, some r⟩ =>
          let t := s.tracer.after tid ok c r
          some ⟨t, R.leave s.env s.tracer t tid c r, Function.update s.frames tid none⟩
      | _ => none
  | .event tid o ok =>
      if R.events o then
        let t := s.tracer.event tid ok o
        match R.occurs s.env s.tracer t tid o with
        | none => none
        | some env => some { s with tracer := t, env }
      else none
  | .other l =>
      if R.Free l then
        match l.publish s.tracer with
        | none => none
        | some t => some { s with tracer := t }
      else none

/-- The steps, with what enables each and what it leaves. -/
inductive Moved (s : Process ε) : Move κ → Process ε → Prop where
  | before {tid : Nat} {c : Call} {ok : Nat → Bool} {t : Tracer} {env : ε} :
      R.calls c = true → s.frames tid = none → s.tracer.before tid ok c = some t →
      R.enter s.env s.tracer t tid c = some env →
      Moved s (.before tid c ok) ⟨t, env, Function.update s.frames tid (some { call := c })⟩
  | inner {tid : Nat} {c : Call} {k : κ} {env : ε} :
      s.frames tid = some ⟨c, none⟩ → R.inner s.env tid c k = some env →
      Moved s (.inner tid k) { s with env }
  | returns {tid : Nat} {c : Call} {r : Result} {env : ε} :
      s.frames tid = some ⟨c, none⟩ → R.returns s.env tid c r = some env →
      Moved s (.returns tid r)
        { s with env, frames := Function.update s.frames tid (some ⟨c, some r⟩) }
  | after {tid : Nat} {c : Call} {r : Result} {ok : Nat → Bool} {t : Tracer} :
      s.frames tid = some ⟨c, some r⟩ → t = s.tracer.after tid ok c r →
      Moved s (.after tid ok)
        ⟨t, R.leave s.env s.tracer t tid c r, Function.update s.frames tid none⟩
  | event {tid : Nat} {o : Occurrence} {ok : Nat → Bool} {t : Tracer} {env : ε} :
      R.events o = true → t = s.tracer.event tid ok o →
      R.occurs s.env s.tracer t tid o = some env →
      Moved s (.event tid o ok) { s with tracer := t, env }
  | other {l : Publication} {t : Tracer} :
      R.Free l = true → l.publish s.tracer = some t → Moved s (.other l) { s with tracer := t }

variable {R}

theorem moved_of_step {s s' : Process ε} {l : Move κ} (h : R.step s l = some s') :
    R.Moved s l s' := by
  cases l with
  | before tid c ok =>
      rw [step] at h
      split at h
      next hc =>
        rw [Bool.and_eq_true, Option.isNone_iff_eq_none] at hc
        split at h
        next => cases h
        next t ht =>
          split at h
          next => cases h
          next env henv =>
            cases h
            exact .before hc.1 hc.2 ht henv
      next => cases h
  | inner tid k =>
      rw [step] at h
      split at h
      next c hc =>
        split at h
        next => cases h
        next env henv =>
          cases h
          exact .inner hc henv
      next => cases h
  | returns tid r =>
      rw [step] at h
      split at h
      next c hc =>
        split at h
        next => cases h
        next env henv =>
          cases h
          exact .returns hc henv
      next => cases h
  | after tid ok =>
      rw [step] at h
      split at h
      next c r hc =>
        cases h
        exact .after hc rfl
      next => cases h
  | event tid o ok =>
      rw [step] at h
      split at h
      next ho =>
        dsimp only at h
        split at h
        next => cases h
        next env henv =>
          cases h
          exact .event ho rfl henv
      next => cases h
  | other l =>
      rw [step] at h
      split at h
      next hl =>
        split at h
        next => cases h
        next t ht =>
          cases h
          exact .other hl ht
      next => cases h

/-- The states that runs from `env` reach when all appends succeed. -/
def Reaches (R : Runtime ε κ) (env : ε) (s : Process ε) : Prop :=
  Machine.Reach R.step Move.Appends { env } s

/-- The threads are in calls that the runtime answers for. -/
def Answers (R : Runtime ε κ) (s : Process ε) : Prop :=
  ∀ p f, s.frames p = some f → R.calls f.call = true

theorem Answers.update {s s' : Process ε} {tid : Nat} {f : Option Frame} (h : R.Answers s)
    (hframes : s'.frames = Function.update s.frames tid f)
    (hf : ∀ f', f = some f' → R.calls f'.call = true) : R.Answers s' := by
  intro p f' hp
  rw [hframes] at hp
  by_cases hpt : p = tid
  · subst hpt
    rw [Function.update_self] at hp
    exact hf f' hp
  · rw [Function.update_of_ne hpt] at hp
    exact h p f' hp

theorem Answers.step {s s' : Process ε} {l : Move κ} (h : R.Answers s) (hm : R.Moved s l s') :
    R.Answers s' := by
  cases hm with
  | before hc =>
      refine h.update rfl fun f hf => ?_
      cases hf
      exact hc
  | inner => exact h
  | returns hframe =>
      refine h.update rfl fun f hf => ?_
      cases hf
      have hc := h _ _ hframe
      exact hc
  | after => exact h.update rfl fun f hf => (by cases hf)
  | event => exact h
  | other => exact h

/-- What holds at the start and is kept by every step holds in every state
reached. -/
theorem reach_invariant {P : Move κ → Prop} {env : ε} {s : Process ε}
    (h : Machine.Reach R.step P { env } s) {I : Process ε → Prop} (hstart : I { env })
    (hstep : ∀ s s' l, R.Answers s → I s → P l → R.Moved s l s' → I s') : I s := by
  have hboth := Machine.Reach.invariant (I := fun s => R.Answers s ∧ I s) h
    ⟨fun _ _ hp => (by cases hp), hstart⟩ fun s s' l hI hl hs =>
      ⟨hI.1.step (moved_of_step hs), hstep s s' l hI.1 hI.2 hl (moved_of_step hs)⟩
  exact hboth.2

theorem Reaches.invariant {env : ε} {s : Process ε} (h : R.Reaches env s)
    {I : Process ε → Prop} (hstart : I { env })
    (hstep : ∀ s s' l, R.Answers s → I s → l.Appends → R.Moved s l s' → I s') : I s :=
  reach_invariant h hstart hstep

end Runtime

end Coldtrace
