import Mathlib.Data.List.Basic
import Mathlib.Logic.Function.Basic
import Mathlib.Tactic.Common
import Coldtrace.Lib.Machine
import Coldtrace.Lib.Keyed
import Coldtrace.Entries
import Coldtrace.Writer
import Coldtrace.Thread
import Coldtrace.RoundTrip
import Coldtrace.Reinit
import Coldtrace.Subscribers
import Coldtrace.Indexes
import Coldtrace.Calls

/-!
# The recorder

The subscribers and the threads are two halves of the tracer.  For the
subscribers the log is a list and every append is told whether it succeeds.  For
a thread its calls come from nowhere and end up in the files of its writer.  The
recorder puts the two together: a subscriber appends to the trace of the thread
it runs on, and learns from it whether there is an entry to fill in.  It gives
up at the first append that fails.

`log_accepted` says that the halves agree in every run, whatever fails: the log
of the subscribers has the entries that the threads accepted, each thread in the
order of its calls.
-/

namespace Coldtrace

/-! ## The model -/

/-- The entry of a thread for an entry of the log.  The index is stored in the
field that the type has. -/
def Logged.entry (r : Logged) : Entry where
  type := r.type
  zeroFlag := r.zeroFlag
  ptr := r.ptr
  fields :=
    { size := r.size
      allocIndex := UInt64.ofNat r.index
      atomicIndex := UInt64.ofNat r.index
      caller := r.caller
      threadStackPtr := r.threadStackPtr
      threadStackSize := r.threadStackSize }

/-- What is published to the subscribers that append. -/
inductive Notice where
  | before (c : Call)
  | after (c : Call) (r : Result)
  | event (o : Occurrence)
deriving DecidableEq, Repr

namespace Notice

def publication (n : Notice) (tid : Nat) (ok : Nat → Bool) : Publication :=
  match n with
  | .before c => .before tid c ok
  | .after c r => .after tid c r ok
  | .event o => .event tid o ok

/-- What the subscriber of EVENT_THREAD_START calls first. -/
def first : Notice → List Op
  | .event (.threadStart ..) => [.init]
  | _ => []

/-- What the subscriber of EVENT_SELF_FINI calls last. -/
def last : Notice → List Op
  | .event (.selfFini ..) => [.fini]
  | _ => []

end Notice

inductive Happening where
  | notice (n : Notice)
  /-- EVENT_STACKTRACE_ENTER. -/
  | enter (caller : UInt64)
  /-- EVENT_STACKTRACE_EXIT. -/
  | exit
deriving DecidableEq, Repr

/-- What happens on a thread, with the configuration, the outcomes that each
append meets, and those that the other calls meet. -/
structure Act where
  tid : Nat
  what : Happening
  cfg : Config
  appends : Nat → Outcomes := fun _ => {}
  others : Outcomes := {}

/-- Calls that append nothing. -/
def Act.calls (a : Act) (ops : List Op) : List Event := ops.map fun op => ⟨a.cfg, a.others, op⟩

/-- The calls of `coldtrace_thread_append` for some entries, up to the first that
fails. -/
def attempts (B : Build) (tid : Nat) (cfg : Config) (o : Nat → Outcomes) :
    Nat → State → List Entry → List Event
  | _, _, [] => []
  | k, s, e :: es =>
      let ev : Event := ⟨cfg, o k, .append e⟩
      if (threadAppend B tid cfg (o k) s.th s.world e.byte e.ptr).1.isSome then
        ev :: attempts B tid cfg o (k + 1) (step B tid s ev) es
      else [ev]

/-- The subscribers and the threads.  `calls` keeps the calls that each thread
has made. -/
structure Recorder where
  desk : Desk := {}
  threads : Nat → State := fun _ => {}
  calls : Nat → List Event := fun _ => []

namespace Recorder

/-- The entries a subscriber appends, if every append succeeds. -/
def wanted (s : Recorder) (tid : Nat) (n : Notice) : List Logged :=
  match (n.publication tid fun _ => true).publish s.desk.tracer with
  | some t => s.desk.tracer.appended t
  | none => []

/-- The thread when a subscriber begins to append. -/
def thread (s : Recorder) (B : Build) (a : Act) (n : Notice) : State :=
  run B a.tid (s.threads a.tid) (a.calls n.first)

/-- The appends of a subscriber. -/
def tries (s : Recorder) (B : Build) (a : Act) (n : Notice) : List Event :=
  attempts B a.tid a.cfg a.appends 0 (s.thread B a n) ((s.wanted a.tid n).map Logged.entry)

/-- The number of the entries that the subscriber gets. -/
def got (s : Recorder) (B : Build) (a : Act) (n : Notice) : Nat :=
  (accepted B a.tid (s.thread B a n) (s.tries B a n)).length

/-- A thread makes some calls. -/
def perform (s : Recorder) (B : Build) (tid : Nat) (evs : List Event) (desk : Desk) : Recorder where
  desk := desk
  threads := Function.update s.threads tid (run B tid (s.threads tid) evs)
  calls := Function.update s.calls tid (s.calls tid ++ evs)

def step (B : Build) (s : Recorder) (a : Act) : Option Recorder :=
  match a.what with
  | .enter caller => some (s.perform B a.tid (a.calls [.push caller]) s.desk)
  | .exit => some (s.perform B a.tid (a.calls [.pop]) s.desk)
  | .notice n =>
      let got := s.got B a n
      match s.desk.step
          (n.publication a.tid fun k => decide (k < got ∨ (s.wanted a.tid n).length ≤ got)) with
      | none => none
      | some desk =>
          some (s.perform B a.tid (a.calls n.first ++ s.tries B a n ++ a.calls n.last) desk)

end Recorder

/-! ## Calls of a thread -/

section

variable {B : Build} {tid : Nat} {cfg : Config} {o : Nat → Outcomes}

theorem accepted_append (B : Build) (tid : Nat) (s : State) (evs evs' : List Event) :
    accepted B tid s (evs ++ evs') =
      accepted B tid s evs ++ accepted B tid (run B tid s evs) evs' := by
  induction evs generalizing s with
  | nil => rfl
  | cons ev evs ih =>
      rw [List.cons_append, accepted, accepted, ih, List.append_assoc]
      rfl

/-- Calls that append nothing have nothing accepted. -/
theorem accepted_calls (a : Act) {ops : List Op} (h : ∀ e, Op.append e ∉ ops) (s : State) :
    accepted B tid s (a.calls ops) = [] := by
  rw [Act.calls]
  induction ops generalizing s with
  | nil => rfl
  | cons op ops ih =>
      simp only [List.mem_cons, not_or] at h
      rw [List.map_cons, accepted, ih fun e => (h e).2]
      cases op with
      | append e => exact absurd rfl (h e).1
      | _ => rfl

/-- Of the entries to be appended the first ones are accepted. -/
theorem accepted_attempts (k : Nat) (s : State) (es : List Entry) :
    accepted B tid s (attempts B tid cfg o k s es) =
      es.take (accepted B tid s (attempts B tid cfg o k s es)).length := by
  induction es generalizing k s with
  | nil => rfl
  | cons e es ih =>
      rw [attempts]
      split
      next hsome =>
        rw [accepted]
        dsimp only
        rw [if_pos hsome, List.singleton_append, List.length_cons, List.take_succ_cons, ← ih]
      next hnone =>
        rw [accepted]
        dsimp only
        rw [if_neg hnone]
        rfl

theorem Notice.append_not_mem_first (n : Notice) (e : Entry) : Op.append e ∉ n.first := by
  unfold Notice.first
  split <;> simp

theorem Notice.append_not_mem_last (n : Notice) (e : Entry) : Op.append e ∉ n.last := by
  unfold Notice.last
  split <;> simp

end

/-! ## What the subscribers append -/

/-- The entries that a subscriber appends in turn: with the first `n` appends
successful and the next one not, the first `n` are in the log. -/
def AppendsInTurn (t : Tracer) (f : (Nat → Bool) → Tracer) (es : List Logged) : Prop :=
  ∀ n ok, (∀ k, k < n → ok k = true) → (n < es.length → ok n = false) →
    (f ok).log = t.log ++ es.take n

/-- The call has a caller for the FREE entry it appends. -/
def Notice.HasCaller : Notice → Prop
  | .before (.free _ pc) | .before (.realloc _ _ pc) => pc ≠ 0
  | _ => True

/-- What every entry of a subscriber on a thread is like. -/
structure Logged.From (r : Logged) (tid : Nat) (n : Notice) : Prop where
  tid : r.tid = tid
  zeroFlag : r.zeroFlag = true → r.type = .read
  caller : n.HasCaller → r.type = .free → r.caller ≠ 0

section

variable {t t₁ : Tracer} {tid : Nat} {n : Notice} {r r' : Logged} {es : List Logged}

theorem appendsInTurn_nil {f : (Nat → Bool) → Tracer} (h : ∀ ok, (f ok).log = t.log) :
    AppendsInTurn t f [] := by
  intro n ok _ _
  rw [h, List.take_nil, List.append_nil]

theorem appendsInTurn_logEntry (hlog : t₁.log = t.log) (r : Logged) :
    AppendsInTurn t (fun ok => t₁.logEntry (ok 0) r) [r] := by
  intro n ok hok hfail
  cases n with
  | zero =>
      dsimp only
      rw [hfail Nat.one_pos, List.take_zero, List.append_nil]
      exact hlog
  | succ n =>
      dsimp only
      rw [hok 0 (Nat.succ_pos n), ← hlog]
      simp [Tracer.logEntry, Tracer.put]

theorem appendsInTurn_logAtomic (t : Tracer) (r : Logged) :
    AppendsInTurn t (fun ok => t.logAtomic (ok 0) r) [{ r with index := t.nextAtomicIndex }] := by
  intro n ok hok hfail
  cases n with
  | zero =>
      dsimp only
      rw [hfail Nat.one_pos, List.take_zero, List.append_nil]
      rfl
  | succ n =>
      dsimp only
      rw [hok 0 (Nat.succ_pos n)]
      simp [Tracer.logAtomic, Tracer.put, Tracer.takeAtomic]

theorem appendsInTurn_logAlloc (t : Tracer) (r : Logged) :
    AppendsInTurn t (fun ok => t.logAlloc (ok 0) r) [{ r with index := t.nextAllocIndex }] := by
  intro n ok hok hfail
  cases n with
  | zero =>
      dsimp only
      rw [hfail Nat.one_pos, List.take_zero, List.append_nil]
      rfl
  | succ n =>
      dsimp only
      rw [hok 0 (Nat.succ_pos n)]
      simp [Tracer.logAlloc, Tracer.put, Tracer.takeAlloc]

theorem appendsInTurn_two (hlog : t₁.log = t.log) (r r' : Logged) :
    AppendsInTurn t (fun ok => if !ok 0 then t₁ else (t₁.put r).logEntry (ok 1) r') [r, r'] := by
  intro n ok hok hfail
  cases n with
  | zero =>
      dsimp only
      rw [hfail (Nat.succ_pos 1), List.take_zero, List.append_nil]
      exact hlog
  | succ n =>
      dsimp only
      rw [hok 0 (Nat.succ_pos n), ← hlog]
      cases n with
      | zero =>
          rw [hfail (by simp)]
          simp [Tracer.logEntry, Tracer.put]
      | succ n =>
          rw [hok 1 (by omega)]
          simp [Tracer.logEntry, Tracer.put]

/-- The subscribers of a call that uses an area, after it. -/
theorem after_slot_inTurn {c : Call} {addr : UInt64} (h : c.slot = some addr) (t : Tracer)
    (tid : Nat) (res : Result) :
    AppendsInTurn t (fun ok => t.after tid ok c res)
      (c.entries tid (t.areas (getArea addr)).idxA t.nextAtomicIndex res) := by
  cases c with
  | aread | awrite | fence =>
      cases h
      exact appendsInTurn_logEntry rfl _
  | rmw | xchg =>
      cases h
      exact appendsInTurn_two rfl _ _
  | cmpxchg =>
      cases h
      cases hr : res.ok with
      | true =>
          simp only [Tracer.after, Tracer.relLogRWCond, Call.entries, hr, if_true]
          exact appendsInTurn_two rfl _ _
      | false =>
          simp only [Tracer.after, Tracer.relLogRWCond, Call.entries, hr, Bool.false_eq_true,
            if_false]
          intro n ok hok hfail
          have hlog : (t.release (getArea addr)).log = t.log := rfl
          refine Eq.trans ?_ (appendsInTurn_logEntry hlog _ n ok hok hfail)
          dsimp only
          cases ok 0 <;> rfl
  | _ => cases h

theorem Call.entries_from {c : Call} {addr : UInt64} (h : c.slot = some addr) (idxA idxB : Nat)
    (res : Result) : ∀ r ∈ c.entries tid idxA idxB res, r.From tid n := by
  cases c with
  | aread | awrite | rmw | xchg | fence =>
      simp only [Call.entries, List.mem_cons, List.not_mem_nil, or_false]
      rintro r (rfl | rfl) <;> exact ⟨rfl, by simp, by simp⟩
  | cmpxchg =>
      cases hr : res.ok <;>
        simp only [Call.entries, hr, List.mem_cons, List.not_mem_nil, or_false, if_true,
          Bool.false_eq_true, if_false]
      · rintro r rfl
        exact ⟨rfl, by simp, by simp⟩
      · rintro r (rfl | rfl) <;> exact ⟨rfl, by simp, by simp⟩
  | _ => cases h

/-- A subscriber on a thread: it waits, or it appends its entries in turn. -/
def Notice.Appends (t : Tracer) (tid : Nat) (n : Notice) : Prop :=
  ∃ f es, (∀ ok, (n.publication tid ok).publish t = some (f ok)) ∧ AppendsInTurn t f es ∧
    ∀ r ∈ es, r.From tid n

theorem appends_none {f : (Nat → Bool) → Tracer}
    (hf : ∀ ok, (n.publication tid ok).publish t = some (f ok)) (hlog : ∀ ok, (f ok).log = t.log) :
    n.Appends t tid :=
  ⟨f, [], hf, appendsInTurn_nil hlog, fun _ h => nomatch h⟩

theorem appends_one {f : (Nat → Bool) → Tracer}
    (hf : ∀ ok, (n.publication tid ok).publish t = some (f ok)) (h : AppendsInTurn t f [r])
    (hr : r.From tid n) : n.Appends t tid :=
  ⟨f, [r], hf, h, fun _ hmem => List.mem_singleton.mp hmem ▸ hr⟩

theorem before_appends (t : Tracer) (tid : Nat) (c : Call) :
    (∀ ok, t.before tid ok c = none) ∨ (Notice.before c).Appends t tid := by
  have hfetch : ∀ addr, c.slot = some addr →
      (∀ ok, t.before tid ok c = none) ∨ (Notice.before c).Appends t tid := by
    intro addr hslot
    cases hf : t.fetchStackAcq addr with
    | none => exact .inl fun ok => (before_slot hslot).trans hf
    | some t' =>
        exact .inr (appends_none (f := fun _ => t') (fun ok => (before_slot hslot).trans hf)
          fun _ => (fetchStackAcq_spec hf).log)
  cases c with
  | aread | awrite | rmw | xchg | cmpxchg | fence => exact hfetch _ rfl
  | realloc | free =>
      exact .inr (appends_one (fun _ => rfl) (appendsInTurn_logAlloc t _)
        ⟨rfl, nofun, fun hcaller _ => hcaller⟩)
  | munmap =>
      exact .inr (appends_one (fun _ => rfl) (appendsInTurn_logAlloc t _)
        ⟨rfl, nofun, fun _ => nofun⟩)
  | memcpy | memmove =>
      exact .inr (appends_one (fun _ => rfl) (appendsInTurn_logEntry rfl _)
        ⟨rfl, nofun, fun _ => nofun⟩)
  | mutexUnlock | condWait | condTimedwait | condClockwait | rwlockUnlock | spinUnlock | semPost
  | cxaGuardRelease | cxaGuardAbort =>
      exact .inr (appends_one (fun _ => rfl) (appendsInTurn_logAtomic t _)
        ⟨rfl, nofun, fun _ => nofun⟩)
  | _ => exact .inr (appends_none (fun _ => rfl) fun _ => rfl)

theorem acquired_appends {c : Call} {res : Result} {type : EntryType} {lock : UInt64}
    (h : ∀ ok, t.after tid ok c res = t.acquired tid ok res type lock) (htype : type ≠ .free) :
    (Notice.after c res).Appends t tid := by
  by_cases hret : res.ret = 0
  · exact appends_one (fun ok => congrArg some ((h ok).trans (if_pos hret)))
      (appendsInTurn_logAtomic t _) ⟨rfl, nofun, fun _ hf => absurd hf htype⟩
  · exact appends_none (fun ok => congrArg some ((h ok).trans (if_neg hret))) fun _ => rfl

theorem after_appends (t : Tracer) (tid : Nat) (c : Call) (res : Result) :
    (Notice.after c res).Appends t tid := by
  cases c with
  | aread | awrite | rmw | xchg | cmpxchg | fence =>
      exact ⟨_, _, fun _ => rfl, after_slot_inTurn rfl t tid res, Call.entries_from rfl _ _ res⟩
  | mutexLock | mutexTrylock | mutexTimedlock | mutexClocklock | rwlockRdlock | rwlockTryrdlock
  | rwlockTimedrdlock | rwlockWrlock | rwlockTrywrlock | rwlockTimedwrlock | spinLock | spinTrylock
  | semWait | semTrywait | semTimedwait => exact acquired_appends (fun _ => rfl) nofun
  | threadJoin | condWait | condTimedwait | condClockwait | cxaGuardAcquire =>
      exact appends_one (fun _ => rfl) (appendsInTurn_logAtomic t _) ⟨rfl, nofun, fun _ => nofun⟩
  | malloc | calloc | realloc | alignedAlloc | mmap =>
      exact appends_one (fun _ => rfl) (appendsInTurn_logAlloc t _) ⟨rfl, nofun, fun _ => nofun⟩
  | posixMemalign =>
      by_cases hret : res.ret = 0
      · exact appends_one (fun ok => congrArg some (if_pos hret)) (appendsInTurn_logAlloc t _)
          ⟨rfl, nofun, fun _ => nofun⟩
      · exact appends_none (fun ok => congrArg some (if_neg hret)) fun _ => rfl
  | threadCreate | memcpy | memmove | memset =>
      exact appends_one (fun _ => rfl) (appendsInTurn_logEntry rfl _) ⟨rfl, nofun, fun _ => nofun⟩
  | _ => exact appends_none (fun _ => rfl) fun _ => rfl

theorem event_appends (t : Tracer) (tid : Nat) (o : Occurrence) :
    (Notice.event o).Appends t tid := by
  cases o with
  | selfFini main =>
      cases main with
      | true =>
          exact appends_one (fun _ => rfl) (appendsInTurn_logAtomic t _)
            ⟨rfl, nofun, fun _ => nofun⟩
      | false => exact appends_none (fun _ => rfl) fun _ => rfl
  | maRead | maReadRange =>
      exact appends_one (fun _ => rfl) (appendsInTurn_logEntry rfl _)
        ⟨rfl, fun _ => rfl, fun _ => nofun⟩
  | maWrite | maWriteRange | testMarker =>
      exact appends_one (fun _ => rfl) (appendsInTurn_logEntry rfl _) ⟨rfl, nofun, fun _ => nofun⟩
  | annotateRwlockAcq lock isW | annotateRwlockRel lock isW =>
      cases isW <;>
        exact appends_one (fun _ => rfl) (appendsInTurn_logAtomic t _) ⟨rfl, nofun, fun _ => nofun⟩
  | _ =>
      exact appends_one (fun _ => rfl) (appendsInTurn_logAtomic t _) ⟨rfl, nofun, fun _ => nofun⟩

theorem Notice.cases (t : Tracer) (tid : Nat) (n : Notice) :
    (∀ ok, (n.publication tid ok).publish t = none) ∨ n.Appends t tid := by
  cases n with
  | before c => exact before_appends t tid c
  | after c res => exact .inr (after_appends t tid c res)
  | event o => exact .inr (event_appends t tid o)

end

/-! ## Runs -/

theorem Desk.publish_of_step {s s' : Desk} {l : Publication} (h : s.step l = some s') :
    l.publish s.tracer = some s'.tracer := by
  have hplain : ∀ {tid : Nat} {t : Tracer}, s.plain tid t = some s' → s'.tracer = t := by
    intro tid t hp
    rw [Desk.plain] at hp
    split at hp
    next => cases hp
    next =>
      cases hp
      rfl
  cases l with
  | before tid c ok =>
      rw [Desk.step] at h
      split at h
      next => cases h
      next t hbefore =>
        refine hbefore.trans (congrArg some ?_)
        split at h
        next =>
          split at h
          next => cases h
          next =>
            cases h
            rfl
        next => exact (hplain h).symm
  | after tid c r ok =>
      rw [Desk.step] at h
      refine congrArg some ?_
      split at h
      next =>
        split at h
        next =>
          cases h
          rfl
        next => cases h
      next => exact (hplain h).symm
  | event tid o ok => exact congrArg some (hplain h).symm

section

variable {B : Build} {s s' : Recorder} {a : Act} {n : Notice}

theorem Recorder.wanted_eq {tid : Nat} {f : (Nat → Bool) → Tracer} {es : List Logged}
    (hf : ∀ ok, (n.publication tid ok).publish s.desk.tracer = some (f ok))
    (h : AppendsInTurn s.desk.tracer f es) : s.wanted tid n = es := by
  have hlog := h es.length (fun _ => true) (fun _ _ => rfl) fun hlt => absurd hlt (Nat.lt_irrefl _)
  rw [List.take_length] at hlog
  rw [Recorder.wanted, hf]
  exact Tracer.appended_of_log hlog

/-- A subscriber leaves in the log the entries it gets, in the order in which it
wants them. -/
theorem Recorder.step_notice (hwhat : a.what = .notice n) (h : s.step B a = some s') :
    ∃ desk,
      s.desk.step (n.publication a.tid fun k =>
        decide (k < s.got B a n ∨ (s.wanted a.tid n).length ≤ s.got B a n)) = some desk ∧
      s' = s.perform B a.tid (a.calls n.first ++ s.tries B a n ++ a.calls n.last) desk ∧
      desk.tracer.log = s.desk.tracer.log ++ (s.wanted a.tid n).take (s.got B a n) ∧
      ∀ r ∈ s.wanted a.tid n, r.From a.tid n := by
  rw [Recorder.step, hwhat] at h
  dsimp only at h
  split at h
  next => cases h
  next desk hdesk =>
    cases h
    have hpublish := Desk.publish_of_step hdesk
    rcases Notice.cases s.desk.tracer a.tid n with hnone | ⟨f, es, hf, hturn, hfrom⟩
    · rw [hnone] at hpublish
      cases hpublish
    · have hwanted := s.wanted_eq hf hturn
      rw [hf, Option.some_inj] at hpublish
      refine ⟨desk, hdesk, rfl, ?_, hwanted ▸ hfrom⟩
      rw [← hpublish, hwanted]
      refine hturn _ _ (fun k hk => ?_) fun hlt => ?_
      · rw [decide_eq_true_eq]
        exact .inl hk
      · rw [decide_eq_false_iff_not]
        omega

section

variable (s : Recorder) (B : Build) {tid tid' : Nat} (evs : List Event) (desk : Desk)

@[simp] theorem Recorder.perform_desk : (s.perform B tid evs desk).desk = desk := rfl

@[simp] theorem Recorder.perform_threads_self :
    (s.perform B tid evs desk).threads tid = run B tid (s.threads tid) evs :=
  Function.update_self ..

@[simp] theorem Recorder.perform_threads_of_ne (h : tid' ≠ tid) :
    (s.perform B tid evs desk).threads tid' = s.threads tid' :=
  Function.update_of_ne h ..

@[simp] theorem Recorder.perform_calls_self :
    (s.perform B tid evs desk).calls tid = s.calls tid ++ evs :=
  Function.update_self ..

@[simp] theorem Recorder.perform_calls_of_ne (h : tid' ≠ tid) :
    (s.perform B tid evs desk).calls tid' = s.calls tid' :=
  Function.update_of_ne h ..

end

/-- The threads are where their calls brought them, and the log has the entries
that they accepted. -/
structure Recorder.Consistent (B : Build) (s : Recorder) : Prop where
  threads : ∀ tid, s.threads tid = run B tid {} (s.calls tid)
  log : ∀ tid, (ofThread tid s.desk.tracer.log).map Logged.entry = accepted B tid {} (s.calls tid)

theorem Recorder.Consistent.perform (h : s.Consistent B) {tid : Nat} {evs : List Event}
    {desk : Desk} {es : List Logged} (hlog : desk.tracer.log = s.desk.tracer.log ++ es)
    (htid : ∀ r ∈ es, r.tid = tid)
    (haccepted : es.map Logged.entry = accepted B tid (s.threads tid) evs) :
    (s.perform B tid evs desk).Consistent B := by
  refine ⟨fun tid' => ?_, fun tid' => ?_⟩
  · by_cases heq : tid' = tid
    · subst heq
      rw [s.perform_threads_self, s.perform_calls_self, run_append, ← h.threads]
    · rw [s.perform_threads_of_ne _ _ _ heq, s.perform_calls_of_ne _ _ _ heq, h.threads]
  · have hof : ofThread tid' desk.tracer.log = ofThread tid' s.desk.tracer.log ++
        ofThread tid' es := by
      rw [hlog, ofThread, List.filter_append]
      rfl
    rw [s.perform_desk, hof]
    by_cases heq : tid' = tid
    · subst heq
      have hall : ofThread tid' es = es :=
        List.filter_eq_self.mpr fun r hr => decide_eq_true (htid r hr)
      rw [s.perform_calls_self, hall, List.map_append, h.log, haccepted, h.threads, accepted_append]
    · have hnone : ofThread tid' es = [] :=
        List.filter_eq_nil_iff.mpr fun r hr => by
          rw [decide_eq_true_eq, htid r hr]
          exact fun h => heq h.symm
      rw [s.perform_calls_of_ne _ _ _ heq, hnone, List.append_nil, h.log]

theorem Recorder.Consistent.step (h : s.Consistent B) (hs : s.step B a = some s') :
    s'.Consistent B := by
  cases hwhat : a.what with
  | enter caller =>
      rw [Recorder.step, hwhat] at hs
      cases hs
      exact h.perform (List.append_nil _).symm (fun _ h => nomatch h)
        (accepted_calls a (by simp) _).symm
  | exit =>
      rw [Recorder.step, hwhat] at hs
      cases hs
      exact h.perform (List.append_nil _).symm (fun _ h => nomatch h)
        (accepted_calls a (by simp) _).symm
  | notice n =>
      obtain ⟨desk, -, rfl, hlog, hfrom⟩ := Recorder.step_notice hwhat hs
      refine h.perform hlog (fun r hr => (hfrom r (List.mem_of_mem_take hr)).tid) ?_
      rw [accepted_append, accepted_append, accepted_calls a n.append_not_mem_first,
        accepted_calls a n.append_not_mem_last, List.nil_append, List.append_nil, List.map_take]
      exact (accepted_attempts ..).symm

end

end Coldtrace
