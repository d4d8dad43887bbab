import Mathlib.Logic.Function.Basic
import Mathlib.Tactic.Common
import Coldtrace.Calls

/-!
# Lifecycles of threads

Threads create, start, end and join one another.  A created thread comes to
exist inside the real `pthread_create`, and may run to its end before the
creator's second subscriber.  A real `pthread_join` returns once the thread it
names has ended.

The runtime keeps a mark for each entry that one of these steps appends, with
the thread that the entry is about.  The index of a `THREAD_CREATE` is that of
its own call, since only the first subscriber of a create call writes the slot
of the calling thread.  It was drawn before the created thread existed.  Every
other index is drawn in the step that appends it.
-/

namespace Coldtrace

/-! ## Threads -/

inductive Stage where
  | unborn
  | created
  | running
  | ended
deriving DecidableEq, Repr

def Stage.rank : Stage → Nat
  | .unborn => 0
  | .created => 1
  | .running => 2
  | .ended => 3

inductive LifeEvent where
  | create
  | start
  | exit
  | join
deriving DecidableEq, Repr

def LifeEvent.rank : LifeEvent → Nat
  | .create => 0
  | .start => 1
  | .exit => 2
  | .join => 3

def LifeEvent.type : LifeEvent → EntryType
  | .create => .threadCreate
  | .start => .threadStart
  | .exit => .threadExit
  | .join => .threadJoin

/-- The stage from which a thread may have an entry of this kind. -/
def LifeEvent.stage : LifeEvent → Stage
  | .create => .created
  | .start => .running
  | .exit | .join => .ended

/-- An entry about a thread. -/
structure Mark where
  kind : LifeEvent
  thread : Nat
  entry : Logged
deriving DecidableEq, Repr

structure Threads where
  stage : Nat → Stage := fun _ => .unborn
  /-- The `pthread_t` of a thread. -/
  handle : Nat → UInt64 := fun _ => 0
  /-- The index drawn by the call that created a thread. -/
  drawn : Nat → Nat := fun _ => 0
  /-- The index drawn by the last create call of a thread. -/
  drawing : Nat → Nat := fun _ => 0
  /-- The thread that the call of a thread has created or joined. -/
  target : Nat → Option Nat := fun _ => none
  marks : List Mark := []

namespace Threads

def enter (e : Threads) (t : Tracer) (tid : Nat) : Call → Option Threads
  | .threadCreate =>
      some
        { e with
          drawing := Function.update e.drawing tid t.nextAtomicIndex,
          target := Function.update e.target tid none }
  | _ => some { e with target := Function.update e.target tid none }

/-- What happens inside a call: a thread with a handle comes to exist, or a
thread that has ended is joined. -/
inductive Inner where
  | creates (child : Nat) (handle : UInt64)
  | joins (thread : Nat)
deriving DecidableEq, Repr

def inner (e : Threads) (tid : Nat) : Call → Inner → Option Threads
  | .threadCreate, .creates child handle =>
      if e.target tid = none ∧ e.stage child = .unborn then
        some
          { e with
            stage := Function.update e.stage child .created,
            handle := Function.update e.handle child handle,
            drawn := Function.update e.drawn child (e.drawing tid),
            target := Function.update e.target tid (some child) }
      else none
  | .threadJoin handle, .joins thread =>
      if e.target tid = none ∧ e.stage thread = .ended ∧ e.handle thread = handle then
        some { e with target := Function.update e.target tid (some thread) }
      else none
  | _, _ => none

/-- A create call that fails creates no thread.  A join does not return without
having joined. -/
def returns (e : Threads) (tid : Nat) (c : Call) (r : Result) : Option Threads :=
  match c, e.target tid with
  | .threadCreate, some child => if r.ret = 0 ∧ r.ptr = e.handle child then some e else none
  | .threadCreate, none => if r.ret = 0 then none else some e
  | .threadJoin _, some _ => if r.ret = 0 then some e else none
  | _, _ => none

/-- Note the entries as being about a thread. -/
def mark (e : Threads) (kind : LifeEvent) (thread : Nat) (es : List Logged) : Threads :=
  { e with marks := e.marks ++ es.map fun entry => ⟨kind, thread, entry⟩ }

def leave (e : Threads) (t t' : Tracer) (tid : Nat) (c : Call) : Threads :=
  match c, e.target tid with
  | .threadCreate, some child => e.mark .create child (t.appended t')
  | .threadJoin _, some thread => e.mark .join thread (t.appended t')
  | _, _ => e

def occurs (e : Threads) (t t' : Tracer) (tid : Nat) : Occurrence → Option Threads
  | .threadStart self _ _ =>
      if e.stage tid = .created ∧ e.handle tid = self then
        some ({ e with stage := Function.update e.stage tid .running }.mark .start tid
          (t.appended t'))
      else none
  | .threadExit self =>
      if e.stage tid = .running ∧ e.handle tid = self then
        some ({ e with stage := Function.update e.stage tid .ended }.mark .exit tid
          (t.appended t'))
      else none
  | _ => none

end Threads

/-- The calls of `pthread_create` and `pthread_join`, and the threads they are
about. -/
def lifecycle : Runtime Threads Threads.Inner where
  calls
    | .threadCreate | .threadJoin _ => true
    | _ => false
  events
    | .threadStart .. | .threadExit _ => true
    | _ => false
  enter e t _ tid c := e.enter t tid c
  inner := Threads.inner
  returns := Threads.returns
  leave e t t' tid c _ := e.leave t t' tid c
  occurs := Threads.occurs

/-! ## The invariant -/

/-- What a mark says about its entry. -/
structure Vouched (s : Process Threads) (m : Mark) : Prop where
  logged : m.entry ∈ s.tracer.log
  type : m.entry.type = m.kind.type
  ptr : m.entry.ptr = s.env.handle m.thread
  index_lt : m.entry.index < s.tracer.nextAtomicIndex
  stage : m.kind.stage.rank ≤ (s.env.stage m.thread).rank
  /-- The index of `THREAD_CREATE` is the one drawn for the thread, and the
  others are above it. -/
  drawn : m.entry.index = s.env.drawn m.thread ∧ m.kind = .create ∨
    s.env.drawn m.thread < m.entry.index ∧ m.kind ≠ .create

/-- The entries about a thread are in the order of its life. -/
def Ordered (marks : List Mark) : Prop :=
  ∀ m ∈ marks, ∀ m' ∈ marks, m.thread = m'.thread → m.kind.rank < m'.kind.rank →
    m.entry.index < m'.entry.index

/-- A thread inside a create call. -/
structure Creating (s : Process Threads) (p : Nat) (r : Option Result) : Prop where
  parked : s.tracer.createdThreadIdx p = s.env.drawing p
  drawing_lt : s.env.drawing p < s.tracer.nextAtomicIndex
  child : ∀ c, s.env.target p = some c → s.env.stage c ≠ .unborn ∧
    s.env.drawn c = s.env.drawing p ∧ ∀ res, r = some res → res.ptr = s.env.handle c

/-- What holds of the call a thread is in. -/
structure Busy (s : Process Threads) (p : Nat) : Prop where
  creating : ∀ r, s.frames p = some ⟨.threadCreate, r⟩ → Creating s p r
  joining : ∀ h r c, s.frames p = some ⟨.threadJoin h, r⟩ → s.env.target p = some c →
    s.env.stage c = .ended ∧ s.env.handle c = h

/-- The entries about a thread that are there: one for each step that it has
taken, and its `THREAD_CREATE` unless its creator is still in the call. -/
structure Reported (s : Process Threads) (c : Nat) : Prop where
  create : s.env.stage c ≠ .unborn → (∃ m ∈ s.env.marks, m.kind = .create ∧ m.thread = c) ∨
    ∃ p r, s.frames p = some ⟨.threadCreate, r⟩ ∧ s.env.target p = some c
  start : 2 ≤ (s.env.stage c).rank → ∃ m ∈ s.env.marks, m.kind = .start ∧ m.thread = c
  exit : 3 ≤ (s.env.stage c).rank → ∃ m ∈ s.env.marks, m.kind = .exit ∧ m.thread = c

structure Lives (s : Process Threads) : Prop where
  marked : ∀ m ∈ s.env.marks, Vouched s m
  ordered : Ordered s.env.marks
  drawn_lt : ∀ c, s.env.stage c ≠ .unborn → s.env.drawn c < s.tracer.nextAtomicIndex
  busy : ∀ p, Busy s p
  reported : ∀ c, Reported s c

theorem Lives.init : Lives { env := {} } where
  marked _ h := by cases h
  ordered _ h := by cases h
  drawn_lt _ h := absurd rfl h
  busy _ := ⟨fun _ h => (by cases h), fun _ _ _ h => (by cases h)⟩
  reported _ := ⟨fun h => absurd rfl h, fun h => (by cases h), fun h => (by cases h)⟩

/-- What no step takes back. -/
structure Advances (s s' : Process Threads) : Prop where
  log : ∀ e ∈ s.tracer.log, e ∈ s'.tracer.log
  next : s.tracer.nextAtomicIndex ≤ s'.tracer.nextAtomicIndex
  stage : ∀ c, (s.env.stage c).rank ≤ (s'.env.stage c).rank
  same : ∀ c, s.env.stage c ≠ .unborn →
    s'.env.handle c = s.env.handle c ∧ s'.env.drawn c = s.env.drawn c

theorem Stage.rank_pos {st : Stage} : 0 < st.rank ↔ st ≠ .unborn := by
  cases st <;> simp [Stage.rank]

theorem Stage.ended_of_rank {st : Stage} (h : 3 ≤ st.rank) : st = .ended := by
  cases st <;> first | rfl | simp [Stage.rank] at h

theorem LifeEvent.stage_pos (k : LifeEvent) : 0 < k.stage.rank := by
  cases k <;> simp [LifeEvent.stage, Stage.rank]

section

variable {s s' : Process Threads} {p : Nat} {m : Mark}

theorem Vouched.born (h : Vouched s m) : s.env.stage m.thread ≠ .unborn :=
  Stage.rank_pos.mp (Nat.lt_of_lt_of_le m.kind.stage_pos h.stage)

theorem Advances.born (ha : Advances s s') {c : Nat} (h : s.env.stage c ≠ .unborn) :
    s'.env.stage c ≠ .unborn :=
  Stage.rank_pos.mp (Nat.lt_of_lt_of_le (Stage.rank_pos.mpr h) (ha.stage c))

theorem Vouched.advance (h : Vouched s m) (ha : Advances s s') : Vouched s' m := by
  obtain ⟨hhandle, hdrawn⟩ := ha.same _ h.born
  exact ⟨ha.log _ h.logged, h.type, hhandle ▸ h.ptr, Nat.lt_of_lt_of_le h.index_lt ha.next,
    Nat.le_trans h.stage (ha.stage _), hdrawn ▸ h.drawn⟩

/-- A call of a thread that does not move. -/
theorem Busy.advance (h : Busy s p) (ha : Advances s s') (hframe : s'.frames p = s.frames p)
    (htarget : s'.env.target p = s.env.target p) (hdrawing : s'.env.drawing p = s.env.drawing p)
    (hcreated : s'.tracer.createdThreadIdx p = s.tracer.createdThreadIdx p) : Busy s' p := by
  constructor
  · intro r hr
    have hc := h.creating r (hframe ▸ hr)
    refine ⟨?_, ?_, fun c hc' => ?_⟩
    · rw [hcreated, hdrawing]
      exact hc.parked
    · rw [hdrawing]
      exact Nat.lt_of_lt_of_le hc.drawing_lt ha.next
    · obtain ⟨hborn, hdrawn, hptr⟩ := hc.child c (htarget ▸ hc')
      obtain ⟨hhandle, hsame⟩ := ha.same c hborn
      refine ⟨ha.born hborn, ?_, ?_⟩
      · rw [hsame, hdrawing]
        exact hdrawn
      · rw [hhandle]
        exact hptr
  · intro handle r c hr hc
    obtain ⟨hended, hh⟩ := h.joining handle r c (hframe ▸ hr) (htarget ▸ hc)
    have hrank := ha.stage c
    rw [hended] at hrank
    refine ⟨Stage.ended_of_rank hrank, ?_⟩
    rw [(ha.same c (by simp [hended])).1]
    exact hh

theorem Ordered.concat {marks : List Mark} (h : Ordered marks)
    (hlow : ∀ m₀ ∈ marks, m₀.thread = m.thread → m₀.kind.rank < m.kind.rank →
      m₀.entry.index < m.entry.index)
    (hhigh : ∀ m₀ ∈ marks, m₀.thread = m.thread → m.kind.rank < m₀.kind.rank →
      m.entry.index < m₀.entry.index) : Ordered (marks ++ [m]) := by
  intro m₁ h₁ m₂ h₂ hthread hrank
  rw [List.mem_append, List.mem_singleton] at h₁ h₂
  rcases h₁ with h₁ | rfl <;> rcases h₂ with h₂ | rfl
  · exact h m₁ h₁ m₂ h₂ hthread hrank
  · exact hlow m₁ h₁ hthread hrank
  · exact hhigh m₂ h₂ hthread.symm hrank
  · exact absurd hrank (Nat.lt_irrefl _)

/-- An entry with the next index comes after all others about its thread, if
none is later in its life. -/
theorem Lives.ordered_next (h : Lives s) (hindex : m.entry.index = s.tracer.nextAtomicIndex)
    (hlast : ∀ m₀ ∈ s.env.marks, m₀.thread = m.thread → m₀.kind.rank ≤ m.kind.rank) :
    Ordered (s.env.marks ++ [m]) := by
  refine h.ordered.concat (fun m₀ h₀ _ _ => ?_) fun m₀ h₀ ht hrank => ?_
  · rw [hindex]
    exact (h.marked m₀ h₀).index_lt
  · exact absurd (hlast m₀ h₀ ht) (Nat.not_le.mpr hrank)

/-- The `THREAD_CREATE` of a thread comes before all others about it. -/
theorem Lives.ordered_create (h : Lives s) (hkind : m.kind = .create)
    (hindex : m.entry.index = s.env.drawn m.thread) : Ordered (s.env.marks ++ [m]) := by
  refine h.ordered.concat (fun m₀ _ _ hrank => ?_) fun m₀ h₀ ht hrank => ?_
  · rw [hkind] at hrank
    cases hrank
  · rcases (h.marked m₀ h₀).drawn with ⟨-, hcreate⟩ | ⟨hlt, -⟩
    · rw [hkind, hcreate] at hrank
      exact absurd hrank (Nat.lt_irrefl _)
    · rw [hindex, ← ht]
      exact hlt

/-! ## Steps -/

/-- The entries about a thread whose stage does not change. -/
theorem Reported.keep {c : Nat} (h : Reported s c) (hstage : s'.env.stage c = s.env.stage c)
    (hmarks : ∀ m ∈ s.env.marks, m ∈ s'.env.marks)
    (hcreate : ∀ p r, s.frames p = some ⟨.threadCreate, r⟩ → s.env.target p = some c →
      (∃ m ∈ s'.env.marks, m.kind = .create ∧ m.thread = c) ∨
        ∃ p r, s'.frames p = some ⟨.threadCreate, r⟩ ∧ s'.env.target p = some c) :
    Reported s' c := by
  have hmono : ∀ {k : LifeEvent}, (∃ m ∈ s.env.marks, m.kind = k ∧ m.thread = c) →
      ∃ m ∈ s'.env.marks, m.kind = k ∧ m.thread = c :=
    fun ⟨m, hm, hk⟩ => ⟨m, hmarks m hm, hk⟩
  constructor
  · intro hborn
    rw [hstage] at hborn
    rcases h.create hborn with hm | ⟨p, r, hp, ht⟩
    · exact .inl (hmono hm)
    · exact hcreate p r hp ht
  · intro hrank
    rw [hstage] at hrank
    exact hmono (h.start hrank)
  · intro hrank
    rw [hstage] at hrank
    exact hmono (h.exit hrank)

variable {tid : Nat}

/-- Only the call of one thread changes, and it created no thread before. -/
theorem Reported.keep_idle {c : Nat} (h : Reported s c) (hstage : s'.env.stage c = s.env.stage c)
    (hmarks : ∀ m ∈ s.env.marks, m ∈ s'.env.marks)
    (hcall : ∀ p, p ≠ tid → s'.frames p = s.frames p ∧ s'.env.target p = s.env.target p)
    (hidle : ∀ r, s.frames tid = some ⟨.threadCreate, r⟩ → s.env.target tid ≠ some c) :
    Reported s' c := by
  refine h.keep hstage hmarks fun p r hp ht => .inr ⟨p, r, ?_⟩
  have hne : p ≠ tid := by
    rintro rfl
    exact hidle r hp ht
  rw [(hcall p hne).1, (hcall p hne).2]
  exact ⟨hp, ht⟩

theorem Lives.other (h : Lives s) {l : Publication} {t : Tracer} (hl : lifecycle.Free l = true)
    (ht : l.publish s.tracer = some t) : Lives { s with tracer := t } := by
  have hg := publish_grows ht
  have ha : Advances s { s with tracer := t } :=
    ⟨fun _ => hg.mem, hg.atomic, fun _ => Nat.le_refl _, fun _ _ => ⟨rfl, rfl⟩⟩
  have hcreated : t.createdThreadIdx = s.tracer.createdThreadIdx := by
    refine publish_created (fun tid ok heq => ?_) ht
    rw [heq] at hl
    cases hl
  exact
    { marked := fun m hm => (h.marked m hm).advance ha
      ordered := h.ordered
      drawn_lt := fun c hc => Nat.lt_of_lt_of_le (h.drawn_lt c hc) ha.next
      busy := fun p => (h.busy p).advance ha rfl rfl rfl (congrFun hcreated p)
      reported := fun c => (h.reported c).keep rfl (fun _ => id) fun p r hp ht =>
        .inr ⟨p, r, hp, ht⟩ }

theorem Lives.enterCreate (h : Lives s) (hframe : s.frames tid = none) {env : Threads}
    (he : s.env.enter s.tracer tid .threadCreate = some env) :
    Lives ⟨s.tracer.setCreateIdx tid, env,
      Function.update s.frames tid (some { call := .threadCreate })⟩ := by
  cases he
  have ha : Advances s ⟨s.tracer.setCreateIdx tid, { s.env with
      drawing := Function.update s.env.drawing tid s.tracer.nextAtomicIndex,
      target := Function.update s.env.target tid none },
      Function.update s.frames tid (some { call := .threadCreate })⟩ :=
    ⟨fun _ => id, Nat.le_succ _, fun _ => Nat.le_refl _, fun _ _ => ⟨rfl, rfl⟩⟩
  refine ⟨fun m hm => (h.marked m hm).advance ha, h.ordered,
    fun c hc => Nat.lt_of_lt_of_le (h.drawn_lt c hc) ha.next, fun p => ?_, fun c => ?_⟩
  · by_cases hp : p = tid
    · subst hp
      refine ⟨fun r _ => ⟨?_, ?_, fun c hc => ?_⟩, fun h r c hr => ?_⟩
      · simp [Tracer.setCreateIdx]
      · simp [Tracer.setCreateIdx, Tracer.takeAtomic]
      · simp at hc
      · simp at hr
    · exact (h.busy p).advance ha (Function.update_of_ne hp ..) (Function.update_of_ne hp ..)
        (Function.update_of_ne hp ..) (Function.update_of_ne hp ..)
  · refine (h.reported c).keep_idle rfl (fun _ => id)
      (fun p hp => ⟨Function.update_of_ne hp .., Function.update_of_ne hp ..⟩) fun r hr => ?_
    cases hframe.symm.trans hr

theorem Lives.enterJoin (h : Lives s) (hframe : s.frames tid = none) {env : Threads}
    {thread : UInt64} (he : s.env.enter s.tracer tid (.threadJoin thread) = some env) :
    Lives ⟨s.tracer, env, Function.update s.frames tid (some { call := .threadJoin thread })⟩ := by
  cases he
  have ha : Advances s ⟨s.tracer, { s.env with target := Function.update s.env.target tid none },
      Function.update s.frames tid (some { call := .threadJoin thread })⟩ :=
    ⟨fun _ => id, Nat.le_refl _, fun _ => Nat.le_refl _, fun _ _ => ⟨rfl, rfl⟩⟩
  refine ⟨fun m hm => (h.marked m hm).advance ha, h.ordered, h.drawn_lt, fun p => ?_, fun c => ?_⟩
  · by_cases hp : p = tid
    · subst hp
      refine ⟨fun r hr => ?_, fun h r c _ hc => ?_⟩
      · simp at hr
      · simp at hc
    · exact (h.busy p).advance ha (Function.update_of_ne hp ..)
        (Function.update_of_ne hp ..) rfl rfl
  · refine (h.reported c).keep_idle rfl (fun _ => id)
      (fun p hp => ⟨Function.update_of_ne hp .., Function.update_of_ne hp ..⟩) fun r hr => ?_
    cases hframe.symm.trans hr

/-- A thread comes to exist, and the index drawn for it is that of the call. -/
theorem Lives.creates (h : Lives s) (hframe : s.frames tid = some ⟨.threadCreate, none⟩)
    {env : Threads} {child : Nat} {handle : UInt64}
    (he : s.env.inner tid .threadCreate (.creates child handle) = some env) :
    Lives { s with env } := by
  rw [Threads.inner] at he
  split at he
  next hc =>
    obtain ⟨htarget, hunborn⟩ := hc
    cases he
    have hne : ∀ c, s.env.stage c ≠ .unborn → c ≠ child := fun c hc heq => hc (heq ▸ hunborn)
    have hcall := (h.busy tid).creating none hframe
    have ha : Advances s
        { s with
          env :=
            { s.env with
              stage := Function.update s.env.stage child .created,
              handle := Function.update s.env.handle child handle,
              drawn := Function.update s.env.drawn child (s.env.drawing tid),
              target := Function.update s.env.target tid (some child) } } := by
      refine ⟨fun _ => id, Nat.le_refl _, fun c => ?_, fun c hc => ?_⟩
      · by_cases hcc : c = child
        · subst hcc
          rw [hunborn]
          exact Nat.zero_le _
        · exact Nat.le_of_eq (congrArg Stage.rank (Function.update_of_ne hcc ..).symm)
      · exact ⟨Function.update_of_ne (hne c hc) .., Function.update_of_ne (hne c hc) ..⟩
    refine ⟨fun m hm => (h.marked m hm).advance ha, h.ordered, fun c hc => ?_, fun p => ?_,
      fun c => ?_⟩
    · by_cases hcc : c = child
      · subst hcc
        simpa using hcall.drawing_lt
      · simp only [Function.update_of_ne hcc] at hc ⊢
        exact h.drawn_lt c hc
    · by_cases hp : p = tid
      · subst hp
        refine ⟨fun r hr => ⟨hcall.parked, hcall.drawing_lt, fun c hc => ?_⟩,
          fun handle r c hr => ?_⟩
        · simp only [Function.update_self, Option.some.injEq] at hc
          subst hc
          cases hframe.symm.trans hr
          simp
        · cases hframe.symm.trans hr
      · exact (h.busy p).advance ha rfl (Function.update_of_ne hp ..) rfl rfl
    · by_cases hcc : c = child
      · subst hcc
        refine ⟨fun _ => .inr ⟨tid, none, hframe, Function.update_self ..⟩,
          fun hr => ?_, fun hr => ?_⟩
        · simp [Stage.rank] at hr
        · simp [Stage.rank] at hr
      · refine (h.reported c).keep_idle (Function.update_of_ne hcc ..) (fun _ => id)
          (fun p hp => ⟨rfl, Function.update_of_ne hp ..⟩) fun r _ ht => ?_
        cases htarget.symm.trans ht
  next => cases he

theorem Lives.joins (h : Lives s) {thread : UInt64}
    (hframe : s.frames tid = some ⟨.threadJoin thread, none⟩) {env : Threads} {c : Nat}
    (he : s.env.inner tid (.threadJoin thread) (.joins c) = some env) : Lives { s with env } := by
  rw [Threads.inner] at he
  split at he
  next hc =>
    obtain ⟨htarget, hended, hhandle⟩ := hc
    cases he
    have ha : Advances s
        { s with env := { s.env with target := Function.update s.env.target tid (some c) } } :=
      ⟨fun _ => id, Nat.le_refl _, fun _ => Nat.le_refl _, fun _ _ => ⟨rfl, rfl⟩⟩
    refine ⟨fun m hm => (h.marked m hm).advance ha, h.ordered, h.drawn_lt, fun p => ?_, fun c => ?_⟩
    · by_cases hp : p = tid
      · subst hp
        refine ⟨fun r hr => ?_, fun h r c' hr hc => ?_⟩
        · cases hframe.symm.trans hr
        · cases hframe.symm.trans hr
          simp only [Function.update_self, Option.some.injEq] at hc
          exact hc ▸ ⟨hended, hhandle⟩
      · exact (h.busy p).advance ha rfl (Function.update_of_ne hp ..) rfl rfl
    · refine (h.reported c).keep_idle rfl (fun _ => id)
        (fun p hp => ⟨rfl, Function.update_of_ne hp ..⟩) fun r _ ht => ?_
      cases htarget.symm.trans ht
  next => cases he

theorem Threads.returns_spec {e env : Threads} {c : Call} {r : Result}
    (h : e.returns tid c r = some env) : env = e ∧
      (c = .threadCreate → ∀ child, e.target tid = some child → r.ptr = e.handle child) := by
  unfold Threads.returns at h
  split at h
  next child ht =>
    split at h
    next hr =>
      cases h
      refine ⟨rfl, fun _ child' ht' => ?_⟩
      cases ht.symm.trans ht'
      exact hr.2
    next => cases h
  next ht =>
    split at h
    next => cases h
    next =>
      cases h
      refine ⟨rfl, fun _ child' ht' => ?_⟩
      cases ht.symm.trans ht'
  next =>
    split at h
    next =>
      cases h
      exact ⟨rfl, fun hc => by cases hc⟩
    next => cases h
  next => cases h

theorem Lives.returns (h : Lives s) {c : Call} {r : Result} {env : Threads}
    (hframe : s.frames tid = some ⟨c, none⟩) (he : s.env.returns tid c r = some env) :
    Lives { s with env, frames := Function.update s.frames tid (some ⟨c, some r⟩) } := by
  obtain ⟨rfl, hptr⟩ := Threads.returns_spec he
  have ha : Advances s
      { s with frames := Function.update s.frames tid (some ⟨c, some r⟩) } :=
    ⟨fun _ => id, Nat.le_refl _, fun _ => Nat.le_refl _, fun _ _ => ⟨rfl, rfl⟩⟩
  refine ⟨fun m hm => (h.marked m hm).advance ha, h.ordered, h.drawn_lt, fun p => ?_, fun c' => ?_⟩
  · by_cases hp : p = tid
    · subst hp
      refine ⟨fun r' hr => ?_, fun handle r' c' hr hc => ?_⟩
      · simp only [Function.update_self, Option.some.injEq, Frame.mk.injEq] at hr
        obtain ⟨rfl, rfl⟩ := hr
        have hcall := (h.busy p).creating none hframe
        refine ⟨hcall.parked, hcall.drawing_lt, fun child hc => ?_⟩
        obtain ⟨hborn, hdrawn, -⟩ := hcall.child child hc
        refine ⟨hborn, hdrawn, fun res hres => ?_⟩
        cases hres
        exact hptr rfl child hc
      · simp only [Function.update_self, Option.some.injEq, Frame.mk.injEq] at hr
        obtain ⟨rfl, -⟩ := hr
        exact (h.busy p).joining handle none c' hframe hc
    · exact (h.busy p).advance ha (Function.update_of_ne hp ..) rfl rfl rfl
  · refine (h.reported c').keep rfl (fun _ => id) fun p r' hp ht => .inr ?_
    by_cases hpt : p = tid
    · subst hpt
      cases hframe.symm.trans hp
      exact ⟨p, some r, Function.update_self .., ht⟩
    · exact ⟨p, r', (Function.update_of_ne hpt ..).trans hp, ht⟩

/-- A step that adds a mark. -/
theorem Lives.marks (h : Lives s) (ha : Advances s s')
    (hmarks : s'.env.marks = s.env.marks ++ [m]) (hm : Vouched s' m)
    (hordered : Ordered (s.env.marks ++ [m])) (hstage : ∀ c, s'.env.stage c ≠ .unborn →
      s.env.stage c ≠ .unborn) (hbusy : ∀ p, Busy s' p)
    (hreported : ∀ c, Reported s' c) : Lives s' where
  marked m' hm' := by
    rw [hmarks, List.mem_append, List.mem_singleton] at hm'
    rcases hm' with hm' | rfl
    · exact (h.marked m' hm').advance ha
    · exact hm
  ordered := hmarks ▸ hordered
  drawn_lt c hc := by
    rw [(ha.same c (hstage c hc)).2]
    exact Nat.lt_of_lt_of_le (h.drawn_lt c (hstage c hc)) ha.next
  busy := hbusy
  reported := hreported

variable {ok : Nat → Bool} {r : Result}

theorem after_threadCreate (hok : ∀ k, ok k = true) (t : Tracer) :
    t.after tid ok .threadCreate r =
      t.put
        { tid := tid, type := .threadCreate, ptr := r.ptr, index := t.createdThreadIdx tid } := by
  rw [Tracer.after, Tracer.logEntry, if_pos (hok 0)]

/-- The other calls when the thread `tid` leaves its own. -/
theorem Lives.busy_leave (h : Lives s) (ha : Advances s s')
    (hframes : s'.frames = Function.update s.frames tid none)
    (htarget : s'.env.target = s.env.target) (hdrawing : s'.env.drawing = s.env.drawing)
    (hcreated : s'.tracer.createdThreadIdx = s.tracer.createdThreadIdx) (p : Nat) : Busy s' p := by
  by_cases hp : p = tid
  · subst hp
    constructor
    · intro r hr
      simp [hframes] at hr
    · intro handle r c hr
      simp [hframes] at hr
  · refine (h.busy p).advance ha ?_ (congrFun htarget p) (congrFun hdrawing p)
      (congrFun hcreated p)
    rw [hframes]
    exact Function.update_of_ne hp ..

theorem mem_marks_left {e : Threads} {kind : LifeEvent} {thread : Nat} {es : List Logged}
    (h : m ∈ e.marks) : m ∈ (e.mark kind thread es).marks := List.mem_append_left _ h

theorem mem_marks_self (e : Threads) (kind : LifeEvent) (thread : Nat) (entry : Logged) :
    ⟨kind, thread, entry⟩ ∈ (e.mark kind thread [entry]).marks :=
  List.mem_append_right _ (List.mem_singleton.mpr rfl)

/-- The second subscriber of a create call.  If the call failed there is no
thread that the entry is about. -/
theorem Lives.leaveCreate (h : Lives s) (hok : ∀ k, ok k = true)
    (hframe : s.frames tid = some ⟨.threadCreate, some r⟩) :
    Lives ⟨s.tracer.after tid ok .threadCreate r,
      s.env.leave s.tracer (s.tracer.after tid ok .threadCreate r) tid .threadCreate,
      Function.update s.frames tid none⟩ := by
  rw [after_threadCreate hok]
  unfold Threads.leave
  rw [Tracer.appended_put]
  obtain ⟨entry, hentry⟩ : ∃ e : Logged, e =
      { tid := tid, type := .threadCreate, ptr := r.ptr,
        index := s.tracer.createdThreadIdx tid } := ⟨_, rfl⟩
  rw [← hentry]
  have hcall := (h.busy tid).creating _ hframe
  have hlog : ∀ e ∈ s.tracer.log, e ∈ (s.tracer.put entry).log := fun e he =>
    List.mem_append_left _ he
  split
  next child _ ht =>
    have ha : Advances s ⟨s.tracer.put entry, s.env.mark .create child [entry],
        Function.update s.frames tid none⟩ :=
      ⟨hlog, Nat.le_refl _, fun _ => Nat.le_refl _, fun _ _ => ⟨rfl, rfl⟩⟩
    obtain ⟨hborn, hdrawn, hptr⟩ := hcall.child child ht
    have hindex : entry.index = s.env.drawn child := by
      rw [hentry, hdrawn]
      exact hcall.parked
    refine h.marks ha rfl ⟨List.mem_append_right _ (List.mem_singleton.mpr rfl), ?_, ?_, ?_,
      Stage.rank_pos.mpr hborn, .inl ⟨hindex, rfl⟩⟩ (h.ordered_create rfl hindex) (fun _ => id)
      (h.busy_leave ha rfl rfl rfl rfl) fun c => ?_
    · rw [hentry]
      rfl
    · rw [hentry]
      exact hptr r rfl
    · show entry.index < s.tracer.nextAtomicIndex
      rw [hindex]
      exact h.drawn_lt child hborn
    · refine (h.reported c).keep rfl (fun _ => mem_marks_left) fun p r' hp htp => ?_
      by_cases hpt : p = tid
      · subst hpt
        cases ht.symm.trans htp
        exact .inl ⟨_, mem_marks_self .., rfl, rfl⟩
      · exact .inr ⟨p, r', (Function.update_of_ne hpt ..).trans hp, htp⟩
  next => contradiction
  next hnone _ =>
    have ht : s.env.target tid = none := by
      cases ht : s.env.target tid with
      | none => rfl
      | some child => exact absurd ht (hnone child rfl)
    have ha : Advances s ⟨s.tracer.put entry, s.env, Function.update s.frames tid none⟩ :=
      ⟨hlog, Nat.le_refl _, fun _ => Nat.le_refl _, fun _ _ => ⟨rfl, rfl⟩⟩
    refine ⟨fun m hm => (h.marked m hm).advance ha, h.ordered, h.drawn_lt,
      h.busy_leave ha rfl rfl rfl rfl, fun c => ?_⟩
    refine (h.reported c).keep_idle rfl (fun _ => id)
      (fun p hp => ⟨Function.update_of_ne hp .., rfl⟩) fun r' _ htp => ?_
    cases ht.symm.trans htp

/-- The process after an entry about a thread got the next index, and stages
changed. -/
def Process.log (s : Process Threads) (kind : LifeEvent) (thread : Nat) (e : Logged)
    (stage : Nat → Stage) (frames : Nat → Option Frame) : Process Threads :=
  let entry := { e with index := s.tracer.nextAtomicIndex }
  ⟨s.tracer.takeAtomic.put entry, { s.env with stage }.mark kind thread [entry], frames⟩

theorem Lives.log (h : Lives s) {k : LifeEvent} {c : Nat} {e : Logged} {stage : Nat → Stage}
    {frames : Nat → Option Frame} (hk : k ≠ .create) (htype : e.type = k.type)
    (hptr : s.env.handle c = e.ptr) (hborn : s.env.stage c ≠ .unborn)
    (hup : ∀ c', (s.env.stage c').rank ≤ (stage c').rank)
    (hsame : ∀ c', stage c' ≠ .unborn → s.env.stage c' ≠ .unborn)
    (hstage : k.stage.rank ≤ (stage c).rank)
    (hlast : ∀ m ∈ s.env.marks, m.thread = c → m.kind.rank ≤ k.rank)
    (hbusy : Advances s (s.log k c e stage frames) → ∀ p, Busy (s.log k c e stage frames) p)
    (hreported : ∀ c', Reported (s.log k c e stage frames) c') :
    Lives (s.log k c e stage frames) := by
  have ha : Advances s (s.log k c e stage frames) :=
    ⟨fun e he => List.mem_append_left _ he, Nat.le_succ _, hup, fun _ _ => ⟨rfl, rfl⟩⟩
  refine h.marks ha rfl ⟨List.mem_append_right _ (List.mem_singleton.mpr rfl), htype, hptr.symm,
    Nat.lt_succ_self _, hstage, .inr ⟨h.drawn_lt c hborn, hk⟩⟩ (h.ordered_next rfl hlast) hsame
    (hbusy ha) hreported

/-- The entries about a thread before it reaches a later stage. -/
theorem Lives.last_of_stage (h : Lives s) {k : LifeEvent} {c : Nat}
    (hk : ∀ k' : LifeEvent, k'.stage.rank ≤ (s.env.stage c).rank → k'.rank ≤ k.rank) :
    ∀ m ∈ s.env.marks, m.thread = c → m.kind.rank ≤ k.rank := by
  rintro m hm rfl
  exact hk _ (h.marked m hm).stage

/-- The second subscriber of a join. -/
theorem Lives.leaveJoin (h : Lives s) (hok : ∀ k, ok k = true) {thread : UInt64}
    (hframe : s.frames tid = some ⟨.threadJoin thread, some r⟩) :
    Lives ⟨s.tracer.after tid ok (.threadJoin thread) r,
      s.env.leave s.tracer (s.tracer.after tid ok (.threadJoin thread) r) tid (.threadJoin thread),
      Function.update s.frames tid none⟩ := by
  have hafter : s.tracer.after tid ok (.threadJoin thread) r = s.tracer.takeAtomic.put
      { tid := tid, type := .threadJoin, ptr := thread, index := s.tracer.nextAtomicIndex } :=
    Tracer.logAtomic_ok (hok 0) ..
  have hidle : ∀ c r', s.frames tid = some ⟨.threadCreate, r'⟩ → s.env.target tid ≠ some c := by
    intro c r' hr
    cases hframe.symm.trans hr
  rw [hafter]
  unfold Threads.leave
  rw [Tracer.appended_takeAtomic]
  split
  next => contradiction
  next thread' c hc ht =>
    cases hc
    obtain ⟨hended, hhandle⟩ := (h.busy tid).joining _ _ c hframe ht
    refine h.log (k := .join) (e := { tid := tid, type := .threadJoin, ptr := thread }) (by simp)
      rfl hhandle (by simp [hended]) (fun _ => Nat.le_refl _) (fun _ => id) (by rw [hended]; decide)
      (h.last_of_stage fun k' _ => by cases k' <;> decide)
      (fun ha => h.busy_leave ha rfl rfl rfl rfl) fun c' => ?_
    exact (h.reported c').keep_idle rfl (fun _ => mem_marks_left)
      (fun p hp => ⟨Function.update_of_ne hp .., rfl⟩) (hidle c')
  next =>
    have ha : Advances s ⟨s.tracer.takeAtomic.put
        { tid := tid, type := .threadJoin, ptr := thread, index := s.tracer.nextAtomicIndex },
        s.env, Function.update s.frames tid none⟩ :=
      ⟨fun e he => List.mem_append_left _ he, Nat.le_succ _, fun _ => Nat.le_refl _,
        fun _ _ => ⟨rfl, rfl⟩⟩
    refine ⟨fun m hm => (h.marked m hm).advance ha, h.ordered,
      fun c hc => Nat.lt_of_lt_of_le (h.drawn_lt c hc) ha.next,
      h.busy_leave ha rfl rfl rfl rfl, fun c => ?_⟩
    exact (h.reported c).keep_idle rfl (fun _ => id)
      (fun p hp => ⟨Function.update_of_ne hp .., rfl⟩) (hidle c)

/-- A thread moves to its next stage and logs an entry about itself. -/
theorem Lives.stages (h : Lives s) {k : LifeEvent} {e : Logged} {st : Stage} (hk : k ≠ .create)
    (htype : e.type = k.type) (hptr : s.env.handle tid = e.ptr)
    (hrank : st.rank = (s.env.stage tid).rank + 1) (hborn : s.env.stage tid ≠ .unborn)
    (hstage : k.stage = st)
    (hlast : ∀ k' : LifeEvent, k'.stage.rank ≤ (s.env.stage tid).rank → k'.rank ≤ k.rank)
    (hother : ∀ k' : LifeEvent, k' = .start ∨ k' = .exit → k'.stage.rank ≤ st.rank → k' ≠ k →
      k'.stage.rank ≤ (s.env.stage tid).rank) :
    Lives (s.log k tid e (Function.update s.env.stage tid st) s.frames) := by
  have hup : ∀ c, (s.env.stage c).rank ≤ (Function.update s.env.stage tid st c).rank := by
    intro c
    by_cases hc : c = tid
    · subst hc
      rw [Function.update_self, hrank]
      exact Nat.le_succ _
    · rw [Function.update_of_ne hc]
  have hsame : ∀ c, Function.update s.env.stage tid st c ≠ .unborn → s.env.stage c ≠ .unborn := by
    intro c
    by_cases hc : c = tid
    · subst hc
      exact fun _ => hborn
    · rw [Function.update_of_ne hc]
      exact id
  refine h.log hk htype hptr hborn hup hsame ?_ (h.last_of_stage hlast)
    (fun ha p => (h.busy p).advance ha rfl rfl rfl rfl) fun c => ?_
  · rw [Function.update_self, hstage]
  · by_cases hc : c = tid
    · subst hc
      -- the entry of the step itself is the new one, and those of earlier steps are there
      have hrec : ∀ k' : LifeEvent, k' = .start ∨ k' = .exit → k'.stage.rank ≤ st.rank →
          ∃ m ∈ (s.log k c e (Function.update s.env.stage c st) s.frames).env.marks,
            m.kind = k' ∧ m.thread = c := by
        intro k' hk' hr
        by_cases heq : k' = k
        · subst heq
          exact ⟨_, mem_marks_self .., rfl, rfl⟩
        · have hle := hother k' hk' hr heq
          rcases hk' with rfl | rfl
          · obtain ⟨m, hm, hmk⟩ := (h.reported c).start hle
            exact ⟨m, mem_marks_left hm, hmk⟩
          · obtain ⟨m, hm, hmk⟩ := (h.reported c).exit hle
            exact ⟨m, mem_marks_left hm, hmk⟩
      refine ⟨fun _ => ?_, fun hr => ?_, fun hr => ?_⟩
      · rcases (h.reported c).create hborn with ⟨m, hm, hmk⟩ | hcall
        · exact .inl ⟨m, mem_marks_left hm, hmk⟩
        · exact .inr hcall
      · have hrank : 2 ≤ st.rank := by simpa [Process.log, Threads.mark] using hr
        exact hrec .start (.inl rfl) hrank
      · have hrank : 3 ≤ st.rank := by simpa [Process.log, Threads.mark] using hr
        exact hrec .exit (.inr rfl) hrank
    · exact (h.reported c).keep (Function.update_of_ne hc ..) (fun _ => mem_marks_left)
        fun p r hp ht => .inr ⟨p, r, hp, ht⟩

theorem Lives.starts (h : Lives s) (hok : ∀ k, ok k = true) {env : Threads}
    {self stackaddr stacksize : UInt64}
    (he : s.env.occurs s.tracer (s.tracer.event tid ok (.threadStart self stackaddr stacksize)) tid
      (.threadStart self stackaddr stacksize) = some env) :
    Lives { s with
      tracer := s.tracer.event tid ok (.threadStart self stackaddr stacksize), env } := by
  have hevent : s.tracer.event tid ok (.threadStart self stackaddr stacksize) =
      s.tracer.takeAtomic.put
        { tid := tid, type := .threadStart, ptr := self, threadStackPtr := stackaddr,
          threadStackSize := stacksize, index := s.tracer.nextAtomicIndex } :=
    Tracer.logAtomic_ok (hok 0) ..
  rw [hevent, Threads.occurs, Tracer.appended_takeAtomic] at he
  rw [hevent]
  split at he
  next hc =>
    cases he
    refine h.stages (k := .start)
      (e := { tid := tid, type := .threadStart, ptr := self, threadStackPtr := stackaddr,
              threadStackSize := stacksize })
      (by simp) rfl hc.2 ?_ ?_ rfl (fun k' hr => ?_) fun k' hk' hr hne => ?_
    · rw [hc.1]
      rfl
    · simp [hc.1]
    · rw [hc.1] at hr
      cases k' <;> simp_all [LifeEvent.stage, Stage.rank, LifeEvent.rank]
    · rcases hk' with rfl | rfl
      · exact absurd rfl hne
      · simp [LifeEvent.stage, Stage.rank] at hr
  next => cases he

theorem Lives.exits (h : Lives s) (hok : ∀ k, ok k = true) {env : Threads} {self : UInt64}
    (he : s.env.occurs s.tracer (s.tracer.event tid ok (.threadExit self)) tid
      (.threadExit self) = some env) :
    Lives { s with tracer := s.tracer.event tid ok (.threadExit self), env } := by
  have hevent : s.tracer.event tid ok (.threadExit self) = s.tracer.takeAtomic.put
      { tid := tid, type := .threadExit, ptr := self, index := s.tracer.nextAtomicIndex } :=
    Tracer.logAtomic_ok (hok 0) ..
  rw [hevent, Threads.occurs, Tracer.appended_takeAtomic] at he
  rw [hevent]
  split at he
  next hc =>
    cases he
    refine h.stages (k := .exit) (e := { tid := tid, type := .threadExit, ptr := self }) (by simp)
      rfl hc.2 ?_ ?_ rfl (fun k' hr => ?_) fun k' hk' hr hne => ?_
    · rw [hc.1]
      rfl
    · simp [hc.1]
    · rw [hc.1] at hr
      cases k' <;> simp_all [LifeEvent.stage, Stage.rank, LifeEvent.rank]
    · rcases hk' with rfl | rfl
      · rw [hc.1]
        exact Nat.le_refl _
      · exact absurd rfl hne
  next => cases he

/-- Every step whose appends succeed keeps the invariant. -/
theorem Lives.step (h : Lives s) {l : Move Threads.Inner} (hans : lifecycle.Answers s)
    (hl : l.Appends) (hm : lifecycle.Moved s l s') : Lives s' := by
  cases hm with
  | @before tid c ok t env hc hframe ht he =>
      cases c with
      | threadCreate =>
          cases ht
          exact h.enterCreate hframe he
      | threadJoin thread =>
          cases ht
          exact h.enterJoin hframe he
      | _ => cases hc
  | @inner tid c k env hframe he =>
      cases c with
      | threadCreate =>
          cases k with
          | creates child handle => exact h.creates hframe he
          | joins => cases he
      | threadJoin thread =>
          cases k with
          | creates => cases he
          | joins c => exact h.joins hframe he
      | _ => cases he
  | returns hframe he => exact h.returns hframe he
  | @after tid c r ok t hframe ht =>
      subst ht
      have hc := hans _ _ hframe
      cases c with
      | threadCreate => exact h.leaveCreate hl hframe
      | threadJoin thread => exact h.leaveJoin hl hframe
      | _ => cases hc
  | @event tid o ok t env ho ht he =>
      subst ht
      cases o with
      | threadStart self stackaddr stacksize => exact h.starts hl he
      | threadExit self => exact h.exits hl he
      | _ => cases ho
  | other hfree ht => exact h.other hfree ht

theorem lives_reach (h : lifecycle.Reaches {} s) : Lives s :=
  h.invariant Lives.init fun _ _ _ hans hI hl hm => hI.step hans hl hm

end

/-- In every interleaving whose appends succeed, the entries about a thread
carry indexes in the order of its life: its creation, its start, its end, and
its join.  A `THREAD_CREATE` carries the index that the call that created the
thread drew.  Every thread that started or ended has the entry for it, and has
a `THREAD_CREATE` unless its creator is still in the call. -/
theorem lifecycle_ordered {s : Process Threads} (h : lifecycle.Reaches {} s) :
    (∀ m ∈ s.env.marks, ∀ m' ∈ s.env.marks, m.thread = m'.thread → m.kind.rank < m'.kind.rank →
      m.entry.index < m'.entry.index) ∧
    (∀ m ∈ s.env.marks, m.entry ∈ s.tracer.log ∧ m.entry.type = m.kind.type ∧
      m.entry.ptr = s.env.handle m.thread ∧
      (m.kind = .create → m.entry.index = s.env.drawn m.thread)) ∧
    (∀ m ∈ s.env.marks, m.kind = .join →
      ∃ m' ∈ s.env.marks, m'.kind = .exit ∧ m'.thread = m.thread) ∧
    ∀ c, Reported s c := by
  have hl := lives_reach h
  refine ⟨hl.ordered, fun m hm => ?_, fun m hm hk => ?_, hl.reported⟩
  · have hm' := hl.marked m hm
    refine ⟨hm'.logged, hm'.type, hm'.ptr, fun hk => ?_⟩
    rcases hm'.drawn with ⟨hindex, -⟩ | ⟨-, hne⟩
    · exact hindex
    · exact absurd hk hne
  · have hstage := (hl.marked m hm).stage
    rw [hk] at hstage
    exact (hl.reported m.thread).exit hstage

/-- A thread is created, creates another, joins it and ends, all before the
second subscriber of the call that created it. -/
theorem lifecycle_ordered_nested :
    ∃ s, lifecycle.Reaches {} s ∧
      s.env.marks.map (fun m => (m.kind, m.thread, m.entry.index)) =
        [(.start, 1, 1), (.start, 2, 3), (.exit, 2, 4), (.create, 2, 2), (.join, 2, 5),
          (.exit, 1, 6), (.create, 1, 0), (.join, 1, 7)] ∧
      ∀ m ∈ s.env.marks, ∀ m' ∈ s.env.marks, m.thread = m'.thread → m.kind.rank < m'.kind.rank →
        m.entry.index < m'.entry.index := by
  let ok : Nat → Bool := fun _ => true
  let ls : List (Move Threads.Inner) :=
    [.before 0 .threadCreate ok, .inner 0 (.creates 1 100), .event 1 (.threadStart 100 0 0) ok,
      .before 1 .threadCreate ok, .inner 1 (.creates 2 200), .event 2 (.threadStart 200 0 0) ok,
      .event 2 (.threadExit 200) ok, .returns 1 { ptr := 200 }, .after 1 ok,
      .before 1 (.threadJoin 200) ok, .inner 1 (.joins 2), .returns 1 {}, .after 1 ok,
      .event 1 (.threadExit 100) ok, .returns 0 { ptr := 100 }, .after 0 ok,
      .before 0 (.threadJoin 100) ok, .inner 0 (.joins 1), .returns 0 {}, .after 0 ok]
  have hls : ∀ l ∈ ls, l.Appends := by
    simp [ls, ok, Move.Appends]
  have hrun : (Machine.run lifecycle.step { env := {} } ls).map
      (fun s => s.env.marks.map fun m => (m.kind, m.thread, m.entry.index)) =
        some [(.start, 1, 1), (.start, 2, 3), (.exit, 2, 4), (.create, 2, 2), (.join, 2, 5),
          (.exit, 1, 6), (.create, 1, 0), (.join, 1, 7)] := by decide +kernel
  obtain ⟨s, hs, hmarks⟩ := Option.map_eq_some_iff.mp hrun
  have hreach : lifecycle.Reaches {} s := Machine.Reach.of_run .start hls hs
  exact ⟨s, hreach, hmarks, (lifecycle_ordered hreach).1⟩

end Coldtrace
