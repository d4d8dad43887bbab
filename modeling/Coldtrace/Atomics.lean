import Mathlib.Data.List.Nodup
import Mathlib.Logic.Function.Basic
import Mathlib.Tactic.Common
import Coldtrace.Lib.Keyed
import Coldtrace.Lib.Runs
import Coldtrace.Memory

/-!
# Atomic accesses are linearised by their indexes

An access locks the area of its block from its first subscriber to its second.
`LockedAreas` says that no two threads are in an area at once, whether or not their
appends succeed.

So the accesses to an area follow one another: the indexes of one are above
those of all that finished before it, and it takes effect after them and before
any other.  The entries about one area are therefore in the order of their
indexes.  A byte whose area all accesses to it lock holds what a replay of the
entries leaves in it, except that an access under way may have written it already.
An access over the end of a block can write the bytes behind it out of order
(`straddling_write_replayed_late`).
-/

namespace Coldtrace

open Keyed

/-! ## Areas -/

/-- An area is locked exactly while a thread is in an access to it, and then
only one is. -/
structure LockedAreas (areas : Fin 128 → Area) (calls : Nat → Option Call) : Prop where
  locked : ∀ a, (areas a).locked = true ↔ ∃ tid c, calls tid = some c ∧ c.area = a
  alone : ∀ {tid tid' c c'}, calls tid = some c → calls tid' = some c' → c.area = c'.area →
    tid = tid'

/-- The call that each thread is in. -/
def Process.calls (s : Process Memory) : Nat → Option Call :=
    fun tid => (s.frames tid).map Frame.call

theorem calls_update (s : Process Memory) (t : Tracer) (env : Memory) (tid : Nat)
    (f : Option Frame) : Process.calls ⟨t, env, Function.update s.frames tid f⟩ =
      Function.update s.calls tid (f.map Frame.call) :=
  Function.comp_update (Option.map Frame.call) s.frames tid f

section

variable {areas : Fin 128 → Area} {calls : Nat → Option Call} {t t' : Tracer} {tid : Nat} {c : Call}

theorem LockedAreas.opens (h : LockedAreas t.areas calls) (hcall : calls tid = none)
    (hf : Fetched t c.area t') : LockedAreas t'.areas (Function.update calls tid (some c)) := by
  have hother : ∀ tid' c', tid' ≠ tid → calls tid' = some c' → c'.area ≠ c.area := by
    intro tid' c' _ hc' heq
    have hl := (h.locked _).mpr ⟨tid', c', hc', heq⟩
    rw [hf.free] at hl
    cases hl
  constructor
  · intro a
    by_cases ha : a = c.area
    · subst ha
      rw [hf.self]
      exact ⟨fun _ => ⟨tid, c, Function.update_self .., rfl⟩, fun _ => rfl⟩
    · rw [hf.other a ha, h.locked]
      constructor
      · rintro ⟨tid', c', hc', rfl⟩
        have hne : tid' ≠ tid := by
          rintro rfl
          cases hcall.symm.trans hc'
        exact ⟨tid', c', (Function.update_of_ne hne ..).trans hc', rfl⟩
      · rintro ⟨tid', c', hc', rfl⟩
        have hne : tid' ≠ tid := by
          rintro rfl
          rw [Function.update_self] at hc'
          cases hc'
          exact ha rfl
        rw [Function.update_of_ne hne] at hc'
        exact ⟨tid', c', hc', rfl⟩
  · intro p q cp cq hp hq harea
    by_cases hpt : p = tid <;> by_cases hqt : q = tid
    · exact hpt.trans hqt.symm
    · subst hpt
      rw [Function.update_self] at hp
      rw [Function.update_of_ne hqt] at hq
      cases hp
      exact absurd harea.symm (hother q cq hqt hq)
    · subst hqt
      rw [Function.update_self] at hq
      rw [Function.update_of_ne hpt] at hp
      cases hq
      exact absurd harea (hother p cp hpt hp)
    · rw [Function.update_of_ne hpt] at hp
      rw [Function.update_of_ne hqt] at hq
      exact h.alone hp hq harea

theorem LockedAreas.closes (h : LockedAreas t.areas calls) (hcall : calls tid = some c) {k : Nat}
    {es : List Logged} (hr : Released t c.area k es t') :
    LockedAreas t'.areas (Function.update calls tid none) := by
  constructor
  · intro a
    by_cases ha : a = c.area
    · subst ha
      rw [hr.unlocked]
      refine ⟨fun hl => (by cases hl), ?_⟩
      rintro ⟨tid', c', hc', harea⟩
      have hne : tid' ≠ tid := by
        rintro rfl
        simp at hc'
      rw [Function.update_of_ne hne] at hc'
      exact absurd (h.alone hc' hcall harea) hne
    · rw [hr.other a ha, h.locked]
      constructor
      · rintro ⟨tid', c', hc', rfl⟩
        have hne : tid' ≠ tid := by
          rintro rfl
          cases hcall.symm.trans hc'
          exact ha rfl
        exact ⟨tid', c', (Function.update_of_ne hne ..).trans hc', rfl⟩
      · rintro ⟨tid', c', hc', rfl⟩
        have hne : tid' ≠ tid := by
          rintro rfl
          simp at hc'
        rw [Function.update_of_ne hne] at hc'
        exact ⟨tid', c', hc', rfl⟩
  · intro p q cp cq hp hq harea
    have hne : ∀ {p' : Nat} {c' : Call}, Function.update calls tid none p' = some c' →
        calls p' = some c' := by
      intro p' c' hp'
      by_cases hpt : p' = tid
      · subst hpt
        simp at hp'
      · rwa [Function.update_of_ne hpt] at hp'
    exact h.alone (hne hp) (hne hq) harea

end

/-- The types of the entries of atomic accesses and fences. -/
def EntryType.isAccess : EntryType → Bool
  | .atomicRead | .atomicWrite | .fence => true
  | _ => false

theorem free_areas {l : Publication} {t t' : Tracer} (hl : atomicAccesses.Free l = true)
    (h : l.publish t = some t') : t'.areas = t.areas := by
  have hnone : ∀ {c : Call}, (!c.slot.isSome) = true → c.slot = none := by
    intro c hc
    simpa using hc
  cases l with
  | before => exact before_areas (hnone hl) h
  | after =>
      cases h
      exact after_areas (hnone hl) _
  | event =>
      cases h
      exact (published_event _).areas

/-- The other subscribers log no access. -/
theorem free_not_access {l : Publication} (hl : atomicAccesses.Free l = true) :
    ∀ type ∈ l.types, type.isAccess = false := by
  have hcall : ∀ {c : Call}, (!c.slot.isSome) = true → ∀ type ∈ c.types, type.isAccess = false := by
    intro c hc
    cases c <;> simp_all [Call.slot, Call.types, EntryType.isAccess]
  cases l with
  | before => exact hcall hl
  | after => exact hcall hl
  | event tid o ok => cases o <;> simp [Publication.types, Occurrence.types, EntryType.isAccess]

/-- Every step keeps the areas guarded, whether or not its appends succeed. -/
theorem LockedAreas.step {s s' : Process Memory} {l : Move Empty}
    (h : LockedAreas s.tracer.areas s.calls) (hans : atomicAccesses.Answers s)
    (hm : atomicAccesses.Moved s l s') :
    LockedAreas s'.tracer.areas s'.calls := by
  cases hm with
  | before hc hframe ht =>
      rw [calls_update]
      exact h.opens (by simp [Process.calls, hframe]) (before_area hc ht)
  | inner _ he => exact Empty.elim (by assumption)
  | @returns tid c r env hframe =>
      have hsame : Function.update s.calls tid (some c) = s.calls :=
        Function.update_eq_self_iff.mpr (congrArg (Option.map Frame.call) hframe).symm
      rw [calls_update]
      show LockedAreas s.tracer.areas (Function.update s.calls tid (some c))
      rw [hsame]
      exact h
  | after hframe ht =>
      subst ht
      rw [calls_update]
      obtain ⟨es, -, -, hr⟩ := after_area (hans _ _ hframe) s.tracer _ _ _
      exact h.closes (congrArg (Option.map Frame.call) hframe) hr
  | event ho => cases ho
  | other hfree ht =>
      rw [free_areas hfree ht]
      exact h

theorem LockedAreas.start : LockedAreas ({ env := {} } : Process Memory).tracer.areas
    ({ env := {} } : Process Memory).calls where
  locked _ := ⟨fun h => (by cases h), fun ⟨_, _, h, _⟩ => (by cases h)⟩
  alone h := by cases h

/-! ## The invariant -/

/-- The entries that a finished access has. -/
def Access.entries (a : Access) : List Logged := a.call.entries a.tid a.first a.second a.result

/-- A read of these bytes saw what a replay of the entries leaves in the guarded
ones. -/
def Memory.Saw (e : Memory) (bs : List UInt64) (seen : List Nat)
    (es : List (Nat × Logged)) : Prop :=
  ∀ (i : Nat) (b : UInt64), bs[i]? = some b → e.Guarded b → seen[i]? = some (replayed es b)

/-- What holds of the access that a thread is in. -/
structure Running (s : Process Memory) (tid : Nat) (c : Call) (res : Option Result) (a : Access) :
    Prop where
  lt : s.env.current tid < s.env.next
  tid : a.tid = tid
  call : a.call = c
  unfinished : a.finished = false
  kept : (s.tracer.areas c.area).idxA = a.first
  first_lt : a.first < s.tracer.nextAtomicIndex
  /-- Its index is above those of the finished accesses to its area. -/
  above : ∀ x ∈ s.env.history, getArea x.2.ptr = c.area → x.2.index < a.first
  result : ∀ r, res = some r → a.result = r
  time_lt : res.isSome = true → a.time < s.env.clock
  /-- It takes effect after the finished accesses to its area. -/
  later : res.isSome = true → ∀ x ∈ s.env.history, getArea x.2.ptr = c.area →
    (s.env.access x.1).time < a.time
  seen : res.isSome = true → c.reads = true → s.env.Saw c.bytes a.seen s.env.history

/-- What holds of the entries. -/
structure Written (e : Memory) (t : Tracer) : Prop where
  records : e.history.map Prod.snd = t.log.filter fun r => r.type.isAccess
  known : ∀ x ∈ e.history, x.1 < e.next ∧ (e.access x.1).finished = true
  times : ∀ x ∈ e.history, (e.access x.1).time < e.clock
  entries : ∀ n, (e.access n).finished = true →
    n < e.next ∧ (e.access n).call.slot.isSome = true ∧
      (e.history.filter fun x => x.1 = n).map Prod.snd = (e.access n).entries
  ascending : ∀ a, Ascending (fun x : Nat × Logged => x.2.index)
    (e.history.filter fun x => getArea x.2.ptr = a)
  below : ∀ x ∈ e.history, x.2.index < t.nextAtomicIndex
  ordered : ∀ x ∈ e.history, ∀ y ∈ e.history, getArea x.2.ptr = getArea y.2.ptr → x.1 ≠ y.1 →
    x.2.index < y.2.index → (e.access x.1).time < (e.access y.1).time
  reads : ∀ pre n r post, e.history = pre ++ (n, r) :: post → r.type = .atomicRead →
    e.Saw (bytes r.ptr r.size) (e.access n).seen pre

/-- What holds of a guarded byte. -/
structure Cells (s : Process Memory) : Prop where
  quiet : ∀ b, s.env.Guarded b →
    (∀ tid c r, s.frames tid = some ⟨c, some r⟩ → c.area ≠ getArea b) →
    s.env.cell b = replayed s.env.history b
  /-- An access that took effect may have written the byte. -/
  busy : ∀ tid c r, s.frames tid = some ⟨c, some r⟩ → ∀ b, s.env.Guarded b → c.area = getArea b →
    s.env.cell b = if c.writes r && c.bytes.contains b then s.env.current tid
      else replayed s.env.history b

structure Linear (s : Process Memory) : Prop where
  guarded : LockedAreas s.tracer.areas s.calls
  running : ∀ tid c res, s.frames tid = some ⟨c, res⟩ →
    Running s tid c res (s.env.access (s.env.current tid))
  written : Written s.env s.tracer
  cells : Cells s

theorem Linear.start : Linear { env := {} } where
  guarded := LockedAreas.start
  running _ _ _ h := by cases h
  written :=
    { records := rfl
      known := fun _ h => (by cases h)
      times := fun _ h => (by cases h)
      entries := fun _ h => (by cases h)
      ascending := fun _ => List.Pairwise.nil
      below := fun _ h => (by cases h)
      ordered := fun _ h => (by cases h)
      reads := fun pre _ _ _ h => (by cases pre <;> cases h) }
  cells := ⟨fun _ _ _ => rfl, fun _ _ _ h => (by cases h)⟩

section

variable {s s' : Process Memory} {tid tid' : Nat} {c c' : Call} {r : Result}

/-- No two threads are in one area. -/
theorem Linear.area_ne (h : Linear s) {res res' : Option Result} (hf : s.frames tid = some ⟨c, res⟩)
    (hf' : s.frames tid' = some ⟨c', res'⟩) (hne : tid' ≠ tid) : c'.area ≠ c.area := fun harea =>
  hne (h.guarded.alone (congrArg (Option.map Frame.call) hf') (congrArg (Option.map Frame.call) hf)
    harea)

/-- The accesses of two threads are different ones. -/
theorem Linear.current_ne (h : Linear s) {res res' : Option Result}
    (hf : s.frames tid = some ⟨c, res⟩) (hf' : s.frames tid' = some ⟨c', res'⟩) (hne : tid' ≠ tid) :
    s.env.current tid' ≠ s.env.current tid := by
  intro heq
  have h₁ := (h.running tid c res hf).tid
  have h₂ := (h.running tid' c' res' hf').tid
  rw [heq, h₁] at h₂
  exact hne h₂.symm

/-- An access that a thread is in has no entry yet. -/
theorem Linear.ne_current (h : Linear s) {res : Option Result} (hf : s.frames tid = some ⟨c, res⟩)
    {x : Nat × Logged} (hx : x ∈ s.env.history) : x.1 ≠ s.env.current tid := by
  intro heq
  have h₁ := (h.written.known x hx).2
  rw [heq, (h.running tid c res hf).unfinished] at h₁
  cases h₁

/-- The guarded bytes of the access that a thread is in are in its area. -/
theorem Running.area_of_mem {res : Option Result}
    (h : Running s tid c res (s.env.access (s.env.current tid))) {b : UInt64}
    (hg : s.env.Guarded b) (hb : b ∈ c.bytes) : getArea b = c.area := by
  have harea := hg _ h.lt
  rw [h.call] at harea
  exact harea hb

theorem Memory.Saw.later {e e' : Memory} {bs : List UInt64} {seen : List Nat}
    {es : List (Nat × Logged)} (h : e.Saw bs seen es) (hguarded : ∀ b, e'.Guarded b → e.Guarded b) :
    e'.Saw bs seen es := fun i b hb hg => h i b hb (hguarded b hg)

/-- The access of a thread that does not move. -/
theorem Running.keep {res : Option Result}
    (h : Running s tid c res (s.env.access (s.env.current tid)))
    (hcurrent : s'.env.current tid = s.env.current tid) (hnext : s.env.next ≤ s'.env.next)
    (hindex : s.tracer.nextAtomicIndex ≤ s'.tracer.nextAtomicIndex)
    (hclock : s.env.clock ≤ s'.env.clock)
    (harea : s'.tracer.areas c.area = s.tracer.areas c.area)
    (hhistory : ∀ x ∈ s'.env.history, getArea x.2.ptr = c.area →
      x ∈ s.env.history ∧ (s'.env.access x.1).time = (s.env.access x.1).time)
    (hguarded : ∀ b, s'.env.Guarded b → s.env.Guarded b)
    (hreplayed : ∀ b, s'.env.Guarded b → getArea b = c.area →
      replayed s'.env.history b = replayed s.env.history b) :
    Running s' tid c res (s.env.access (s.env.current tid)) where
  lt := hcurrent ▸ Nat.lt_of_lt_of_le h.lt hnext
  tid := h.tid
  call := h.call
  unfinished := h.unfinished
  kept := harea ▸ h.kept
  first_lt := Nat.lt_of_lt_of_le h.first_lt hindex
  above x hx ha := h.above x (hhistory x hx ha).1 ha
  result := h.result
  time_lt hres := Nat.lt_of_lt_of_le (h.time_lt hres) hclock
  later hres x hx ha := by
    obtain ⟨hmem, htime⟩ := hhistory x hx ha
    rw [htime]
    exact h.later hres x hmem ha
  seen hres hreads i b hb hg := by
    have hin := h.area_of_mem (hguarded b hg) (List.mem_of_getElem? hb)
    rw [hreplayed b hg hin]
    exact h.seen hres hreads i b hb (hguarded b hg)

/-- The entries when no access finishes. -/
theorem Written.keep {e e' : Memory} {t t' : Tracer} (h : Written e t)
    (hhistory : e'.history = e.history) (hnext : e.next ≤ e'.next) (hclock : e.clock ≤ e'.clock)
    (hguarded : ∀ b, e'.Guarded b → e.Guarded b)
    (hunfinished : ∀ n, (e.access n).finished = false → (e'.access n).finished = false)
    (hsame : ∀ n, (e.access n).finished = true → e'.access n = e.access n)
    (hlog : (t'.log.filter fun r => r.type.isAccess) = t.log.filter fun r => r.type.isAccess)
    (hindex : t.nextAtomicIndex ≤ t'.nextAtomicIndex) : Written e' t' := by
  have hfinished : ∀ n, (e'.access n).finished = true → (e.access n).finished = true := by
    intro n hn
    cases hf : (e.access n).finished with
    | true => rfl
    | false =>
        rw [hunfinished n hf] at hn
        cases hn
  have hmem : ∀ x ∈ e'.history, e'.access x.1 = e.access x.1 := fun x hx =>
    hsame _ (h.known x (hhistory ▸ hx)).2
  exact
    { records := by rw [hhistory, hlog, h.records]
      known := fun x hx => by
        rw [hmem x hx]
        have hk := h.known x (hhistory ▸ hx)
        exact ⟨Nat.lt_of_lt_of_le hk.1 hnext, hk.2⟩
      times := fun x hx => by
        rw [hmem x hx]
        exact Nat.lt_of_lt_of_le (h.times x (hhistory ▸ hx)) hclock
      entries := fun n hn => by
        have hn' := hfinished n hn
        rw [hsame n hn', hhistory]
        obtain ⟨hlt, hrest⟩ := h.entries n hn'
        exact ⟨Nat.lt_of_lt_of_le hlt hnext, hrest⟩
      ascending := hhistory ▸ h.ascending
      below := fun x hx => Nat.lt_of_lt_of_le (h.below x (hhistory ▸ hx)) hindex
      ordered := fun x hx y hy => by
        rw [hmem x hx, hmem y hy]
        exact h.ordered x (hhistory ▸ hx) y (hhistory ▸ hy)
      reads := fun pre n r post hsplit => by
        have hx : (n, r) ∈ e'.history := by simp [hsplit]
        rw [hmem _ hx]
        exact fun hr => (h.reads pre n r post (hhistory ▸ hsplit) hr).later hguarded }

/-! ## Steps -/

section

variable {e : Memory} {t : Tracer} {b : UInt64} {n : Nat}

theorem Memory.access_enter (hn : n ≠ e.next) : (e.enter t tid c).access n = e.access n :=
  Function.update_of_ne hn ..

theorem Memory.current_enter (htid : tid' ≠ tid) :
    (e.enter t tid c).current tid' = e.current tid' :=
  Function.update_of_ne htid ..

theorem Memory.guarded_enter (hg : (e.enter t tid c).Guarded b) : e.Guarded b :=
  hg.of_later (Nat.le_succ _) fun _ hn => congrArg Access.call (access_enter (Nat.ne_of_lt hn))

theorem Memory.access_returns (hn : n ≠ e.current tid) :
    (e.returns tid c r).access n = e.access n :=
  Function.update_of_ne hn ..

theorem Memory.guarded_returns (hg : (e.returns tid c r).Guarded b) : e.Guarded b := by
  refine hg.of_later (Nat.le_refl _) fun n _ => ?_
  by_cases hn : n = e.current tid
  · subst hn
    show (Function.update e.access _ _ _).call = _
    rw [Function.update_self]
  · rw [access_returns hn]

end

section

variable {ok : Nat → Bool} {t : Tracer} {frames : Nat → Option Frame}

/-- The access that begins has the next index. -/
theorem Linear.running_enter_self (h : Linear s) (hc : c.slot.isSome = true)
    (ht : s.tracer.before tid ok c = some t) :
    Running ⟨t, s.env.enter s.tracer tid c, frames⟩ tid c none
      ((s.env.enter s.tracer tid c).access ((s.env.enter s.tracer tid c).current tid)) := by
  have hf := before_area hc ht
  have hself : (s.env.enter s.tracer tid c).access ((s.env.enter s.tracer tid c).current tid) =
      { tid := tid, call := c, first := s.tracer.nextAtomicIndex } := by
    show Function.update s.env.access _ _ (Function.update s.env.current _ _ _) = _
    rw [Function.update_self, Function.update_self]
  rw [hself]
  refine ⟨?_, rfl, rfl, rfl, ?_, ?_, fun x hx _ => h.written.below x hx,
    fun _ hr => (by cases hr), fun hr => (by cases hr), fun hr => (by cases hr),
    fun hr => (by cases hr)⟩
  · show Function.update s.env.current tid s.env.next tid < s.env.next + 1
    rw [Function.update_self]
    exact Nat.lt_succ_self _
  · show (t.areas c.area).idxA = _
    rw [hf.self]
  · show s.tracer.nextAtomicIndex < t.nextAtomicIndex
    rw [hf.next]
    exact Nat.lt_succ_self _

/-- The others are in other areas, for this one was not locked. -/
theorem Linear.running_enter_other (h : Linear s) (hc : c.slot.isSome = true)
    (ht : s.tracer.before tid ok c = some t) (htid : tid' ≠ tid) {res : Option Result}
    (hf' : s.frames tid' = some ⟨c', res⟩) :
    Running ⟨t, s.env.enter s.tracer tid c, frames⟩ tid' c' res
      ((s.env.enter s.tracer tid c).access ((s.env.enter s.tracer tid c).current tid')) := by
  have hf := before_area hc ht
  have hr := h.running tid' c' res hf'
  rw [Memory.current_enter htid, Memory.access_enter (Nat.ne_of_lt hr.lt)]
  refine hr.keep (Memory.current_enter htid) (Nat.le_succ _) ?_ (Nat.le_refl _) ?_
    (fun x hx _ => ⟨hx, ?_⟩) (fun _ => Memory.guarded_enter) fun _ _ _ => rfl
  · show s.tracer.nextAtomicIndex ≤ t.nextAtomicIndex
    rw [hf.next]
    exact Nat.le_succ _
  · refine hf.other _ fun harea => ?_
    have hl := (h.guarded.locked c.area).mpr
      ⟨tid', c', congrArg (Option.map Frame.call) hf', harea⟩
    rw [hf.free] at hl
    cases hl
  · exact congrArg Access.time (Memory.access_enter (Nat.ne_of_lt (h.written.known x hx).1))

theorem Linear.written_enter (h : Linear s) (hc : c.slot.isSome = true)
    (ht : s.tracer.before tid ok c = some t) : Written (s.env.enter s.tracer tid c) t := by
  have hf := before_area hc ht
  refine h.written.keep rfl (Nat.le_succ _) (Nat.le_refl _) (fun _ => Memory.guarded_enter)
    (fun n hn => ?_) (fun n hn => ?_) ?_ ?_
  · by_cases hnn : n = s.env.next
    · subst hnn
      show (Function.update s.env.access _ _ _).finished = false
      rw [Function.update_self]
    · rw [Memory.access_enter hnn]
      exact hn
  · exact Memory.access_enter (Nat.ne_of_lt (h.written.entries n hn).1)
  · rw [hf.log]
  · rw [hf.next]
    exact Nat.le_succ _

theorem Linear.cells_enter (h : Linear s) (hframe : s.frames tid = none) :
    Cells ⟨t, s.env.enter s.tracer tid c, Function.update s.frames tid (some { call := c })⟩ where
  quiet b hg hb := by
    refine h.cells.quiet b (Memory.guarded_enter hg) fun tid' c' r hf' => hb tid' c' r ?_
    have hne : tid' ≠ tid := by
      rintro rfl
      cases hframe.symm.trans hf'
    exact (Function.update_of_ne hne ..).trans hf'
  busy tid' c' r hf' b hg hb := by
    have htid : tid' ≠ tid := by
      rintro rfl
      simp at hf'
    simp only [Function.update_of_ne htid] at hf'
    rw [Memory.current_enter htid]
    exact h.cells.busy tid' c' r hf' b (Memory.guarded_enter hg) hb

theorem Linear.enter (h : Linear s) (hc : c.slot.isSome = true) (hframe : s.frames tid = none)
    (ht : s.tracer.before tid ok c = some t)
    (hguarded : LockedAreas t.areas (Process.calls ⟨t, s.env.enter s.tracer tid c,
      Function.update s.frames tid (some { call := c })⟩)) :
    Linear ⟨t, s.env.enter s.tracer tid c, Function.update s.frames tid (some { call := c })⟩ := by
  refine ⟨hguarded, fun tid' c' res hf' => ?_, h.written_enter hc ht, h.cells_enter hframe⟩
  by_cases htid : tid' = tid
  · subst htid
    simp only [Function.update_self, Option.some.injEq, Frame.mk.injEq] at hf'
    obtain ⟨rfl, rfl⟩ := hf'
    exact h.running_enter_self hc ht
  · simp only [Function.update_of_ne htid] at hf'
    exact h.running_enter_other hc ht htid hf'

end

section

variable {frames : Nat → Option Frame} (h : Linear s) (hframe : s.frames tid = some ⟨c, none⟩)
include h hframe

/-- No other access to this area has taken effect and is under way. -/
theorem Linear.quiet_area {b : UInt64} (hg : s.env.Guarded b) (hb : c.area = getArea b) :
    s.env.cell b = replayed s.env.history b := by
  refine h.cells.quiet b hg fun tid' c' r' hf' harea => ?_
  have htid : tid' = tid := by
    by_contra hne
    exact h.area_ne hframe hf' hne (harea.trans hb.symm)
  subst htid
  cases hframe.symm.trans hf'

/-- The guarded bytes of other areas are not written. -/
theorem Linear.cell_returns {b : UInt64} (hg : s.env.Guarded b) (hb : c.area ≠ getArea b) :
    (s.env.returns tid c r).cell b = s.env.cell b := by
  refine if_neg fun hand => hb ?_
  rw [Bool.and_eq_true, List.contains_iff_mem] at hand
  exact ((h.running tid c none hframe).area_of_mem hg hand.2).symm

/-- The access that takes effect sees what was written before. -/
theorem Linear.running_returns_self :
    Running ⟨s.tracer, s.env.returns tid c r, frames⟩ tid c (some r)
      ((s.env.returns tid c r).access (s.env.current tid)) := by
  have hrun := h.running tid c none hframe
  have hself : (s.env.returns tid c r).access (s.env.current tid) =
      { s.env.access (s.env.current tid) with
        result := r, time := s.env.clock,
        seen := if c.reads then c.bytes.map s.env.cell else [] } := Function.update_self ..
  rw [hself]
  refine ⟨hrun.lt, hrun.tid, hrun.call, hrun.unfinished, hrun.kept, hrun.first_lt, hrun.above,
    fun r' hr => ?_, fun _ => Nat.lt_succ_self _, fun _ x hx _ => ?_,
    fun _ hreads i b hb hg => ?_⟩
  · cases hr
    rfl
  · show ((s.env.returns tid c r).access x.1).time < s.env.clock
    rw [Memory.access_returns (h.ne_current hframe hx)]
    exact h.written.times x hx
  · have hg : s.env.Guarded b := Memory.guarded_returns hg
    have hin := hrun.area_of_mem hg (List.mem_of_getElem? hb)
    show (if c.reads then c.bytes.map s.env.cell else [])[i]? = some (replayed s.env.history b)
    rw [if_pos hreads, List.getElem?_map, hb, Option.map_some, h.quiet_area hframe hg hin.symm]

theorem Linear.running_returns_other (htid : tid' ≠ tid) {res : Option Result}
    (hf' : s.frames tid' = some ⟨c', res⟩) :
    Running ⟨s.tracer, s.env.returns tid c r, frames⟩ tid' c' res
      ((s.env.returns tid c r).access (s.env.current tid')) := by
  rw [Memory.access_returns (h.current_ne hframe hf' htid)]
  refine (h.running tid' c' res hf').keep rfl (Nat.le_refl _) (Nat.le_refl _) (Nat.le_succ _) rfl
    (fun x hx _ => ⟨hx, ?_⟩) (fun _ => Memory.guarded_returns) fun _ _ _ => rfl
  exact congrArg Access.time (Memory.access_returns (h.ne_current hframe hx))

theorem Linear.written_returns : Written (s.env.returns tid c r) s.tracer := by
  refine h.written.keep rfl (Nat.le_refl _) (Nat.le_succ _) (fun _ => Memory.guarded_returns)
    (fun n hn => ?_) (fun n hn => ?_) rfl (Nat.le_refl _)
  · by_cases hnn : n = s.env.current tid
    · subst hnn
      show (Function.update s.env.access _ _ _).finished = false
      rw [Function.update_self]
      exact hn
    · rw [Memory.access_returns hnn]
      exact hn
  · refine Memory.access_returns ?_
    rintro rfl
    rw [(h.running tid c none hframe).unfinished] at hn
    cases hn

theorem Linear.cells_returns :
    Cells ⟨s.tracer, s.env.returns tid c r,
      Function.update s.frames tid (some ⟨c, some r⟩)⟩ where
  quiet b hg hb := by
    have hg : s.env.Guarded b := Memory.guarded_returns hg
    have hne : c.area ≠ getArea b := hb tid c r (Function.update_self ..)
    show (s.env.returns tid c r).cell b = _
    rw [h.cell_returns hframe hg hne]
    refine h.cells.quiet b hg fun tid' c' r' hf' => hb tid' c' r' ?_
    have htid : tid' ≠ tid := by
      rintro rfl
      cases hframe.symm.trans hf'
    exact (Function.update_of_ne htid ..).trans hf'
  busy tid' c' r' hf' b hlater hb := by
    have hg : s.env.Guarded b := Memory.guarded_returns hlater
    by_cases htid : tid' = tid
    · subst htid
      simp only [Function.update_self, Option.some.injEq, Frame.mk.injEq] at hf'
      obtain ⟨rfl, rfl⟩ := hf'
      show (if c.writes r && c.bytes.contains b then _ else s.env.cell b) = _
      rw [h.quiet_area hframe hg hb]
      rfl
    · simp only [Function.update_of_ne htid] at hf'
      show (s.env.returns tid c r).cell b = _
      rw [h.cell_returns hframe hg fun harea => h.area_ne hframe hf' htid (hb.trans harea.symm)]
      exact h.cells.busy tid' c' r' hf' b hg hb

theorem Linear.returns
    (hguarded : LockedAreas s.tracer.areas (Process.calls ⟨s.tracer, s.env.returns tid c r,
      Function.update s.frames tid (some ⟨c, some r⟩)⟩)) :
    Linear { s with
      env := s.env.returns tid c r,
      frames := Function.update s.frames tid (some ⟨c, some r⟩) } := by
  refine ⟨hguarded, fun tid' c' res hf' => ?_, h.written_returns hframe, h.cells_returns hframe⟩
  by_cases htid : tid' = tid
  · subst htid
    simp only [Function.update_self, Option.some.injEq, Frame.mk.injEq] at hf'
    obtain ⟨rfl, rfl⟩ := hf'
    exact h.running_returns_self hframe
  · simp only [Function.update_of_ne htid] at hf'
    exact h.running_returns_other hframe htid hf'

end

/-- The memory after an access has finished, with its entries. -/
def Memory.finish (e : Memory) (n second : Nat) (es : List Logged) : Memory :=
  { e with
    access := Function.update e.access n { e.access n with second := second, finished := true },
    history := e.history ++ es.map fun r => (n, r) }

theorem Call.entries_isAccess {md idxA idxB : Nat} (hc : c.slot.isSome = true) :
    ∀ r' ∈ c.entries md idxA idxB r, r'.type.isAccess = true := by
  obtain ⟨addr, hslot⟩ := Option.isSome_iff_exists.mp hc
  intro e he
  have htype := Call.entries_types hslot idxA idxB r e he
  cases c with
  | aread | awrite | fence =>
      rw [List.mem_singleton.mp htype]
      rfl
  | rmw | xchg | cmpxchg =>
      simp only [Call.types, List.mem_cons, List.not_mem_nil, or_false] at htype
      rcases htype with h | h <;> simp [h, EntryType.isAccess]
  | _ => cases hslot

section

variable {e : Memory} {n m second : Nat} {es : List Logged}

theorem Memory.access_finish (hm : m ≠ n) : (e.finish n second es).access m = e.access m :=
  Function.update_of_ne hm ..

theorem Memory.access_finish_self : (e.finish n second es).access n =
    { e.access n with second := second, finished := true } :=
  Function.update_self ..

theorem Memory.time_finish (m : Nat) :
    ((e.finish n second es).access m).time = (e.access m).time := by
  by_cases hm : m = n
  · rw [hm, access_finish_self]
  · rw [access_finish hm]

theorem Memory.mem_history_finish {x : Nat × Logged} (hx : x ∈ (e.finish n second es).history) :
    x ∈ e.history ∨ ∃ r ∈ es, x = (n, r) := by
  rcases List.mem_append.mp hx with hx | hx
  · exact .inl hx
  · obtain ⟨r, hr, rfl⟩ := List.mem_map.mp hx
    exact .inr ⟨r, hr, rfl⟩

theorem Memory.guarded_finish {b : UInt64} (h : (e.finish n second es).Guarded b) :
    e.Guarded b := by
  refine h.of_later (Nat.le_refl _) fun m _ => ?_
  by_cases hm : m = n
  · subst hm
    show (Function.update e.access _ _ _).call = _
    rw [Function.update_self]
  · exact congrArg Access.call (Function.update_of_ne hm ..)

/-- The entries of an access replay its write. -/
theorem Memory.replayed_finish {first : Nat} (hes : es = c.entries tid first second r)
    (b : UInt64) : replayed (e.finish n second es).history b =
      if c.writes r && c.bytes.contains b then n else replayed e.history b := by
  show replayed (e.history ++ es.map _) b = _
  rw [hes]
  exact replayed_entries ..

end

section

variable {es : List Logged} {t : Tracer} (h : Linear s)
  (hframe : s.frames tid = some ⟨c, some r⟩)
  (hes : es = c.entries tid (s.env.access (s.env.current tid)).first s.tracer.nextAtomicIndex r)
include h hframe hes

/-- The entries of the access leave the guarded bytes of other areas. -/
theorem Linear.replayed_finish {b : UInt64} (hg : s.env.Guarded b)
    (hb : c.area ≠ getArea b) :
    replayed (s.env.finish (s.env.current tid) s.tracer.nextAtomicIndex es).history b =
      replayed s.env.history b := by
  rw [Memory.replayed_finish hes]
  refine if_neg fun hand => hb ?_
  rw [Bool.and_eq_true, List.contains_iff_mem] at hand
  exact ((h.running tid c _ hframe).area_of_mem hg hand.2).symm

theorem Linear.cells_finish :
    Cells ⟨t, s.env.finish (s.env.current tid) s.tracer.nextAtomicIndex es,
      Function.update s.frames tid none⟩ where
  quiet b hg hb := by
    have hg : s.env.Guarded b := Memory.guarded_finish hg
    show s.env.cell b = replayed (s.env.finish _ _ es).history b
    by_cases harea : c.area = getArea b
    · rw [h.cells.busy tid c r hframe b hg harea, Memory.replayed_finish hes]
    · rw [h.replayed_finish hframe hes hg harea]
      refine h.cells.quiet b hg fun tid' c' r' hf' => ?_
      by_cases htid : tid' = tid
      · subst htid
        cases hframe.symm.trans hf'
        exact harea
      · exact hb tid' c' r' ((Function.update_of_ne htid ..).trans hf')
  busy tid' c' r' hf' b hg hb := by
    have hg : s.env.Guarded b := Memory.guarded_finish hg
    have htid : tid' ≠ tid := by
      rintro rfl
      simp at hf'
    simp only [Function.update_of_ne htid] at hf'
    show s.env.cell b = if _ then s.env.current tid' else replayed (s.env.finish _ _ es).history b
    rw [h.replayed_finish hframe hes hg fun heq =>
      h.area_ne hframe hf' htid (hb.trans heq.symm)]
    exact h.cells.busy tid' c' r' hf' b hg hb

variable (hc : c.slot.isSome = true)
include hc

/-- The indexes of an access are its own, and above those of its area. -/
theorem Linear.index_mem : Ascending Logged.index es ∧
    (∀ e ∈ es, (s.env.access (s.env.current tid)).first ≤ e.index ∧
      e.index < s.tracer.nextAtomicIndex + if c.second r then 1 else 0) := by
  have hrun := h.running tid c _ hframe
  obtain ⟨addr, hslot⟩ := Option.isSome_iff_exists.mp hc
  have hindex := (Call.entries_index hslot tid (s.env.access (s.env.current tid)).first
    s.tracer.nextAtomicIndex r).1
  rw [← hes] at hindex
  have hlt := hrun.first_lt
  constructor
  · rw [ascending_iff, hindex, List.pairwise_cons]
    refine ⟨fun i hi => ?_, List.pairwise_lt_range' ..⟩
    rw [List.mem_range'_1] at hi
    omega
  · intro e he
    have hmem : e.index ∈ es.map Logged.index := List.mem_map_of_mem he
    rw [hindex, List.mem_cons, List.mem_range'_1] at hmem
    omega

/-- The entries of a finished access are those of its call. -/
theorem Linear.entries_finish (m : Nat)
    (hm : ((s.env.finish (s.env.current tid) s.tracer.nextAtomicIndex es).access m).finished =
      true) :
    let e := s.env.finish (s.env.current tid) s.tracer.nextAtomicIndex es
    m < e.next ∧ (e.access m).call.slot.isSome = true ∧
      (e.history.filter fun x => x.1 = m).map Prod.snd = (e.access m).entries := by
  have hrun := h.running tid c _ hframe
  show _ ∧ _ ∧ ((s.env.history ++ es.map fun e => (s.env.current tid, e)).filter
    fun x => x.1 = m).map Prod.snd = _
  rw [List.filter_append]
  by_cases hmn : m = s.env.current tid
  · subst hmn
    rw [Memory.access_finish_self]
    have hnil : (s.env.history.filter fun x => x.1 = s.env.current tid) = [] :=
      List.filter_eq_nil_iff.mpr fun x hx => by simpa using h.ne_current hframe hx
    have hall : ((es.map fun e => (s.env.current tid, e)).filter
        fun x => x.1 = s.env.current tid) = es.map fun e => (s.env.current tid, e) :=
      List.filter_eq_self.mpr (by simp)
    refine ⟨hrun.lt, by rw [hrun.call]; exact hc, ?_⟩
    rw [hnil, hall, List.nil_append, List.map_map, Access.entries]
    simp only [hrun.tid, hrun.call, hrun.result r rfl]
    rw [← hes]
    simp [Function.comp_def]
  · rw [Memory.access_finish hmn] at hm ⊢
    have hnil : ((es.map fun e => (s.env.current tid, e)).filter fun x => x.1 = m) = [] :=
      List.filter_eq_nil_iff.mpr (by simpa using fun _ _ => Ne.symm hmn)
    rw [hnil, List.append_nil]
    exact h.written.entries m hm

/-- The indexes in the area of the access go on ascending. -/
theorem Linear.ascending_finish (a : Fin 128) :
    Ascending (fun x : Nat × Logged => x.2.index)
      ((s.env.finish (s.env.current tid) s.tracer.nextAtomicIndex es).history.filter
        fun x => getArea x.2.ptr = a) := by
  have hrun := h.running tid c _ hframe
  obtain ⟨hasc, hindexes⟩ := h.index_mem hframe hes hc
  have hptr : ∀ e ∈ es, getArea e.ptr = c.area := fun e he =>
    (Call.bytes_of_mem_entries (hes ▸ he) hc).1
  show Ascending _ ((s.env.history ++ es.map fun e => (s.env.current tid, e)).filter _)
  by_cases ha : a = c.area
  · subst ha
    rw [filter_append_of _ (by simpa using hptr)]
    refine List.pairwise_append.mpr ⟨h.written.ascending c.area, ?_, fun x hx y hy => ?_⟩
    · rw [List.pairwise_map]
      exact hasc
    · rw [List.mem_filter, decide_eq_true_eq] at hx
      obtain ⟨e, he, rfl⟩ := List.mem_map.mp hy
      exact Nat.lt_of_lt_of_le (hrun.above x hx.1 hx.2) (hindexes e he).1
  · rw [filter_append_of_not _ (by simpa using fun e he heq => ha (heq.symm.trans (hptr e he)))]
    exact h.written.ascending a

/-- The read of an access is the first of its entries, so it saw what was written
before. -/
theorem Linear.reads_finish (pre : List (Nat × Logged)) (m : Nat) (e : Logged)
    (post : List (Nat × Logged))
    (hsplit : (s.env.finish (s.env.current tid) s.tracer.nextAtomicIndex es).history =
      pre ++ (m, e) :: post) (htype : e.type = .atomicRead) :
    (s.env.finish (s.env.current tid) s.tracer.nextAtomicIndex es).Saw (bytes e.ptr e.size)
      ((s.env.finish (s.env.current tid) s.tracer.nextAtomicIndex es).access m).seen pre := by
  rcases Runs.append_eq_append_cons hsplit with ⟨rest, hrest, -⟩ | ⟨l, hpre, hl⟩
  · rw [Memory.access_finish (h.ne_current hframe (x := (m, e)) (by simp [hrest]))]
    exact (h.written.reads pre m e rest hrest htype).later fun _ => Memory.guarded_finish
  · obtain ⟨l₁, l₂, hl₁₂, rfl, h₂⟩ := List.map_eq_append_iff.mp hl
    obtain ⟨e₂, l₃, rfl, he₂, -⟩ := List.map_eq_cons_iff.mp h₂
    cases he₂
    obtain ⟨rfl, hreads⟩ := Call.read_of_entries (hes.symm.trans hl₁₂) htype
    have hmem : e ∈ es := by rw [hl₁₂]; simp
    have hbytes := (Call.bytes_of_mem_entries (hes ▸ hmem) hc).2
    rw [Memory.access_finish_self, hpre, List.map_nil, List.append_nil, hbytes]
    exact ((h.running tid c _ hframe).seen rfl hreads).later fun _ => Memory.guarded_finish

theorem Linear.written_finish (hlog : t.log = s.tracer.log ++ es)
    (hnext : t.nextAtomicIndex = s.tracer.nextAtomicIndex + if c.second r then 1 else 0) :
    Written (s.env.finish (s.env.current tid) s.tracer.nextAtomicIndex es) t := by
  have hrun := h.running tid c _ hframe
  obtain ⟨-, hindexes⟩ := h.index_mem hframe hes hc
  have hptr : ∀ e ∈ es, getArea e.ptr = c.area := fun e he =>
    (Call.bytes_of_mem_entries (hes ▸ he) hc).1
  refine ⟨?_, fun x hx => ?_, fun x hx => ?_, h.entries_finish hframe hes hc,
    h.ascending_finish hframe hes hc, fun x hx => ?_, fun x hx y hy harea hne hlt => ?_,
    h.reads_finish hframe hes hc⟩
  · show (s.env.history ++ es.map fun e => (s.env.current tid, e)).map Prod.snd = _
    rw [hlog, List.map_append, h.written.records,
      filter_append_of _ fun e he => Call.entries_isAccess hc e (hes ▸ he), List.map_map]
    simp [Function.comp_def]
  · rcases Memory.mem_history_finish hx with hx | ⟨e, he, rfl⟩
    · rw [Memory.access_finish (h.ne_current hframe hx)]
      exact h.written.known x hx
    · rw [Memory.access_finish_self]
      exact ⟨hrun.lt, rfl⟩
  · rw [Memory.time_finish]
    rcases Memory.mem_history_finish hx with hx | ⟨e, he, rfl⟩
    · exact h.written.times x hx
    · exact hrun.time_lt rfl
  · rw [hnext]
    rcases Memory.mem_history_finish hx with hx | ⟨e, he, rfl⟩
    · exact Nat.lt_add_right _ (h.written.below x hx)
    · exact (hindexes e he).2
  · rw [Memory.time_finish, Memory.time_finish]
    rcases Memory.mem_history_finish hx with hx | ⟨e, he, rfl⟩ <;>
      rcases Memory.mem_history_finish hy with hy | ⟨e', he', rfl⟩
    · exact h.written.ordered x hx y hy harea hne hlt
    · exact hrun.later rfl x hx (harea.trans (hptr e' he'))
    · have hlow := hrun.above y hy (harea.symm.trans (hptr e he))
      have hge := (hindexes e he).1
      have hlt' : e.index < y.2.index := hlt
      omega
    · exact absurd rfl hne

/-- The others are in other areas. -/
theorem Linear.running_finish {frames : Nat → Option Frame}
    (hareas : ∀ a, a ≠ c.area → t.areas a = s.tracer.areas a)
    (hnext : s.tracer.nextAtomicIndex ≤ t.nextAtomicIndex) (htid : tid' ≠ tid)
    {res : Option Result} (hf' : s.frames tid' = some ⟨c', res⟩) :
    Running ⟨t, s.env.finish (s.env.current tid) s.tracer.nextAtomicIndex es, frames⟩ tid' c' res
      ((s.env.finish (s.env.current tid) s.tracer.nextAtomicIndex es).access
        (s.env.current tid')) := by
  have harea := h.area_ne hframe hf' htid
  rw [Memory.access_finish (h.current_ne hframe hf' htid)]
  refine (h.running tid' c' res hf').keep rfl (Nat.le_refl _) hnext (Nat.le_refl _)
    (hareas _ harea) (fun x hx hxa => ?_) (fun _ => Memory.guarded_finish)
    fun b hg hb => h.replayed_finish hframe hes (Memory.guarded_finish hg) fun heq =>
      harea (hb.symm.trans heq.symm)
  rcases Memory.mem_history_finish hx with hx | ⟨e, he, rfl⟩
  · exact ⟨hx, Memory.time_finish _⟩
  · exact absurd (hxa.symm.trans (Call.bytes_of_mem_entries (hes ▸ he) hc).1) harea

end

section

variable {t : Tracer}

theorem Linear.leave (h : Linear s) {ok : Nat → Bool} (hok : ∀ k, ok k = true)
    (hframe : s.frames tid = some ⟨c, some r⟩) (hc : c.slot.isSome = true)
    (hguarded : LockedAreas (s.tracer.after tid ok c r).areas
      (Process.calls ⟨s.tracer.after tid ok c r, s.env.leave s.tracer
        (s.tracer.after tid ok c r) tid, Function.update s.frames tid none⟩)) :
    Linear ⟨s.tracer.after tid ok c r, s.env.leave s.tracer (s.tracer.after tid ok c r) tid,
      Function.update s.frames tid none⟩ := by
  obtain ⟨es, -, hes, hr⟩ := after_area hc s.tracer tid ok r
  have hes := hes hok
  rw [(h.running tid c _ hframe).kept] at hes
  have hleave : s.env.leave s.tracer (s.tracer.after tid ok c r) tid =
      s.env.finish (s.env.current tid) s.tracer.nextAtomicIndex es := by
    rw [Memory.leave, Memory.finish, Tracer.appended_of_log hr.log]
  rw [hleave] at hguarded ⊢
  refine ⟨hguarded, fun tid' c' res hf' => ?_, h.written_finish hframe hes hc hr.log hr.next,
    h.cells_finish hframe hes⟩
  have htid : tid' ≠ tid := by
    rintro rfl
    simp at hf'
  simp only [Function.update_of_ne htid] at hf'
  exact h.running_finish hframe hes hc hr.other (hr.next ▸ Nat.le_add_right ..) htid hf'

theorem Linear.other (h : Linear s) {l : Publication} (hl : atomicAccesses.Free l = true)
    (ht : l.publish s.tracer = some t) : Linear { s with tracer := t } := by
  have hg := publish_grows ht
  have hareas := free_areas hl ht
  refine ⟨?_, fun tid' c' res hf' => ?_, ?_, ⟨h.cells.quiet, h.cells.busy⟩⟩
  · show LockedAreas t.areas s.calls
    rw [hareas]
    exact h.guarded
  · exact (h.running tid' c' res hf').keep rfl (Nat.le_refl _) hg.atomic (Nat.le_refl _)
      (congrFun hareas _) (fun x hx _ => ⟨hx, rfl⟩) (fun _ => id) fun _ _ _ => rfl
  · refine h.written.keep rfl (Nat.le_refl _) (Nat.le_refl _) (fun _ => id) (fun _ => id)
      (fun _ _ => rfl) ?_ hg.atomic
    exact hg.filter fun e he => free_not_access hl _ he

/-- Every step whose appends succeed keeps the invariant. -/
theorem Linear.step (h : Linear s) {l : Move Empty} (hans : atomicAccesses.Answers s)
    (hl : l.Appends) (hm : atomicAccesses.Moved s l s') : Linear s' := by
  have hguarded := h.guarded.step hans hm
  cases hm with
  | before hc hframe ht he =>
      cases he
      exact h.enter hc hframe ht hguarded
  | inner => exact Empty.elim (by assumption)
  | returns hframe he =>
      cases he
      exact h.returns hframe hguarded
  | after hframe ht =>
      subst ht
      exact h.leave hl hframe (hans _ _ hframe) hguarded
  | event ho => cases ho
  | other hfree ht => exact h.other hfree ht

theorem linear_reach (h : atomicAccesses.Reaches {} s) : Linear s :=
  h.invariant Linear.start fun _ _ _ hans hI hl hm => hI.step hans hl hm

end

/-! ## Linearisation -/

theorem Written.mem_entries {e : Memory} {t : Tracer} (h : Written e t) {n : Nat}
    (hn : (e.access n).finished = true) {x : Logged} (hx : x ∈ (e.access n).entries) :
    (n, x) ∈ e.history ∧ getArea x.ptr = (e.access n).call.area := by
  obtain ⟨-, hslot, hentries⟩ := h.entries n hn
  refine ⟨?_, (Call.bytes_of_mem_entries hx hslot).1⟩
  rw [← hentries] at hx
  obtain ⟨⟨m, y⟩, hy, rfl⟩ := List.mem_map.mp hx
  rw [List.mem_filter, decide_eq_true_eq] at hy
  obtain ⟨hmem, rfl⟩ := hy
  exact hmem

theorem Written.entries_ne_nil {e : Memory} {t : Tracer} (h : Written e t) {n : Nat}
    (hn : (e.access n).finished = true) : ∃ x, x ∈ (e.access n).entries := by
  obtain ⟨addr, hslot⟩ := Option.isSome_iff_exists.mp (h.entries n hn).2.1
  have hindex := (Call.entries_index hslot (e.access n).tid (e.access n).first (e.access n).second
    (e.access n).result).1
  rw [← Access.entries] at hindex
  refine List.exists_mem_of_ne_nil _ fun hnil => ?_
  rw [hnil] at hindex
  cases hindex

/-- Of two accesses to an area, the one with the lower index takes effect
first. -/
theorem Written.time_lt_iff {e : Memory} {t : Tracer} (h : Written e t) {n m : Nat} (hne : n ≠ m)
    {x y : Logged} (hx : (n, x) ∈ e.history) (hy : (m, y) ∈ e.history)
    (harea : getArea x.ptr = getArea y.ptr) :
    (e.access n).time < (e.access m).time ↔ x.index < y.index := by
  constructor
  · intro htime
    rcases Nat.lt_trichotomy x.index y.index with hlt | heq | hgt
    · exact hlt
    · have hx' : (n, x) ∈ e.history.filter fun z => getArea z.2.ptr = getArea y.ptr :=
        List.mem_filter.mpr ⟨hx, by simpa using harea⟩
      have hy' : (m, y) ∈ e.history.filter fun z => getArea z.2.ptr = getArea y.ptr :=
        List.mem_filter.mpr ⟨hy, by simp⟩
      cases (h.ascending (getArea y.ptr)).eq_of_key hx' hy' heq
      exact absurd rfl hne
    · have hback := h.ordered (m, y) hy (n, x) hx harea.symm (Ne.symm hne) hgt
      exact absurd htime (Nat.lt_asymm hback)
  · exact h.ordered (n, x) hx (m, y) hy harea hne

/-- The bytes of an entry are those of its access. -/
theorem Written.bytes_of_mem {e : Memory} {t : Tracer} (h : Written e t) {x : Nat × Logged}
    (hx : x ∈ e.history) :
    getArea x.2.ptr = (e.access x.1).call.area ∧
      bytes x.2.ptr x.2.size = (e.access x.1).call.bytes := by
  obtain ⟨-, hslot, hentries⟩ := h.entries x.1 (h.known x hx).2
  refine Call.bytes_of_mem_entries (?_ : x.2 ∈ (e.access x.1).entries) hslot
  rw [← hentries]
  exact List.mem_map_of_mem (List.mem_filter.mpr ⟨hx, by simp⟩)

/-- A replay in the order of the indexes leaves in the guarded bytes of a read what
the accesses that took effect before it left there. -/
theorem Written.reads_sorted {e : Memory} {t : Tracer} (h : Written e t) {n : Nat} {r : Logged}
    {pre post : List (Nat × Logged)}
    (hsplit : sort (fun x : Nat × Logged => x.2.index) e.history = pre ++ (n, r) :: post)
    (hr : r.type = .atomicRead) : e.Saw (bytes r.ptr r.size) (e.access n).seen pre := by
  have hperm := sort_perm (fun x : Nat × Logged => x.2.index) e.history
  have hmem : (n, r) ∈ e.history := hperm.subset (by simp [hsplit])
  obtain ⟨pre', post', hsplit'⟩ := List.append_of_mem hmem
  -- the entries about the area are in the same order in both lists
  let p : Nat × Logged → Bool := fun x => decide (getArea x.2.ptr = getArea r.ptr)
  have hp : p (n, r) = true := decide_eq_true rfl
  have hasc := h.ascending (getArea r.ptr)
  have hsame : pre'.filter p ++ (n, r) :: post'.filter p =
      pre.filter p ++ (n, r) :: post.filter p := by
    have hsorted := filter_sort hasc
    rw [hsplit, hsplit', List.filter_append, List.filter_append, List.filter_cons_of_pos hp,
      List.filter_cons_of_pos hp] at hsorted
    exact hsorted.symm
  have hnodup : (pre'.filter p ++ (n, r) :: post'.filter p).Nodup := by
    have hn := hasc.nodup.of_map
    rw [hsplit', List.filter_append, List.filter_cons_of_pos hp] at hn
    exact hn
  have hpre : pre'.filter p = pre.filter p := by
    obtain ⟨-, hcons, hdisjoint⟩ := List.nodup_append'.mp hnodup
    refine ((List.append_cons_inj_of_notMem (fun hin => ?_) ?_).mp hsame).1
    · exact hdisjoint hin List.mem_cons_self
    · exact (List.nodup_cons.mp hcons).1
  have harea : ∀ {b}, e.Guarded b → ∀ x ∈ e.history, b ∈ bytes x.2.ptr x.2.size →
      getArea b = getArea x.2.ptr := by
    intro b hg x hx hb
    obtain ⟨hptr, hbytes⟩ := h.bytes_of_mem hx
    rw [hbytes] at hb
    rw [hptr]
    exact hg x.1 (h.known x hx).1 hb
  have hfilter : ∀ {l : List (Nat × Logged)}, (∀ x ∈ l, x ∈ e.history) →
      ∀ {b}, e.Guarded b → b ∈ bytes r.ptr r.size → replayed (l.filter p) b = replayed l b := by
    intro l hl b hg hb
    refine replayed_filter fun x hx hbx => decide_eq_true ?_
    rw [← harea hg x (hl x hx) hbx]
    exact harea hg (n, r) hmem hb
  intro i b hb hg
  have hin : b ∈ bytes r.ptr r.size := List.mem_of_getElem? hb
  rw [h.reads pre' n r post' hsplit' hr i b hb hg, Option.some.injEq,
    ← hfilter (fun x hx => by simp [hsplit', hx]) hg hin, hpre,
    hfilter (fun x hx => hperm.subset (by simp [hsplit, hx])) hg hin]

/-- In every interleaving of atomic accesses whose appends succeed, the entries
of an access carry the indexes that its own subscribers took.  Of two accesses
to one block of 64 bytes, one takes effect first exactly if all its indexes are
below all those of the other, so that no index of one is between two of the
other.  A replay of the entries in the order of their indexes shows to every
read the writes that it saw, in each byte whose area all accesses to it lock.
These are all bytes where the accesses stay in the blocks of their addresses.
Whether or not appends succeed, an area is locked only while a thread is in an
access to it. -/
theorem accesses_linearised {s : Process Memory} (h : atomicAccesses.Reaches {} s) :
    (s.env.history.map Prod.snd = s.tracer.log.filter fun r => r.type.isAccess) ∧
    (∀ n, (s.env.access n).finished = true →
      (s.env.history.filter fun x => x.1 = n).map Prod.snd = (s.env.access n).entries) ∧
    (∀ n m, n ≠ m → (s.env.access n).finished = true → (s.env.access m).finished = true →
      ∀ a b, (s.env.access n).call.slot = some a → (s.env.access m).call.slot = some b →
      a >>> 6 = b >>> 6 →
      ((s.env.access n).time < (s.env.access m).time ↔
        ∀ x ∈ (s.env.access n).entries, ∀ y ∈ (s.env.access m).entries, x.index < y.index) ∧
      ∀ x ∈ (s.env.access n).entries, ∀ x' ∈ (s.env.access n).entries,
        ∀ y ∈ (s.env.access m).entries, ¬(x.index < y.index ∧ y.index < x'.index)) ∧
    (∀ pre n r post, sort (fun x : Nat × Logged => x.2.index) s.env.history =
        pre ++ (n, r) :: post → r.type = .atomicRead →
      ∀ (i : Nat) (b : UInt64), (bytes r.ptr r.size)[i]? = some b → s.env.Guarded b →
        (s.env.access n).seen[i]? = some (replayed pre b)) ∧
    ∀ s', Machine.Reach atomicAccesses.step (fun _ => True) { env := {} } s' → ∀ a,
      (s'.tracer.areas a).locked = true ↔ ∃ tid c, s'.calls tid = some c ∧ c.area = a := by
  have hw := (linear_reach h).written
  refine ⟨hw.records, fun n hn => (hw.entries n hn).2.2, fun n m hne hn hm a b ha hb hblock => ?_,
    fun pre n r post hsplit hr => hw.reads_sorted hsplit hr, fun s' h' => ?_⟩
  · have harea : (s.env.access n).call.area = (s.env.access m).call.area := by
      rw [Call.area_of_slot ha, Call.area_of_slot hb, getArea, getArea, hblock]
    have htime : ∀ x ∈ (s.env.access n).entries, ∀ y ∈ (s.env.access m).entries,
        ((s.env.access n).time < (s.env.access m).time ↔ x.index < y.index) ∧
        ((s.env.access m).time < (s.env.access n).time ↔ y.index < x.index) := by
      intro x hx y hy
      obtain ⟨hx', hxa⟩ := hw.mem_entries hn hx
      obtain ⟨hy', hya⟩ := hw.mem_entries hm hy
      have hxy := hxa.trans (harea.trans hya.symm)
      exact ⟨hw.time_lt_iff hne hx' hy' hxy, hw.time_lt_iff (Ne.symm hne) hy' hx' hxy.symm⟩
    constructor
    · constructor
      · intro hlt x hx y hy
        exact (htime x hx y hy).1.mp hlt
      · intro hall
        obtain ⟨x, hx⟩ := hw.entries_ne_nil hn
        obtain ⟨y, hy⟩ := hw.entries_ne_nil hm
        exact (htime x hx y hy).1.mpr (hall x hx y hy)
    · rintro x hx x' hx' y hy ⟨hxy, hyx⟩
      exact Nat.lt_asymm ((htime x hx y hy).1.mpr hxy) ((htime x' hx' y hy).2.mpr hyx)
  · have hguarded : LockedAreas s'.tracer.areas s'.calls :=
      Runtime.reach_invariant h' (I := fun s => LockedAreas s.tracer.areas s.calls)
        LockedAreas.start fun _ _ _ hans hI _ hm => hI.step hans hm
    exact hguarded.locked

end

/-- An exchange between a write and a read of its variable by another thread,
while a third thread reads from another block. -/
theorem accesses_linearised_xchg :
    ∃ s, atomicAccesses.Reaches {} s ∧
      s.env.history.map (fun x => (x.1, x.2.type, x.2.index)) =
        [(1, .atomicWrite, 0), (3, .atomicRead, 2), (3, .atomicWrite, 3), (2, .atomicRead, 1),
          (4, .atomicRead, 4)] ∧
      (s.env.access 3).seen = List.replicate 8 1 ∧ (s.env.access 4).seen = List.replicate 4 3 ∧
      (∀ x ∈ (s.env.access 3).entries, ∀ y ∈ (s.env.access 4).entries, x.index < y.index) ∧
      ∀ pre n r post, sort (fun x : Nat × Logged => x.2.index) s.env.history =
        pre ++ (n, r) :: post → r.type = .atomicRead →
        ∀ (i : Nat) (b : UInt64), (bytes r.ptr r.size)[i]? = some b →
          (s.env.access n).seen[i]? = some (replayed pre b) := by
  let ok : Nat → Bool := fun _ => true
  let ls : List (Move Empty) :=
    [.before 1 (.awrite 64 8) ok, .returns 1 {}, .after 1 ok, .before 3 (.aread 128 4) ok,
      .before 2 (.xchg 64 8) ok, .returns 3 {}, .returns 2 {}, .after 2 ok, .after 3 ok,
      .before 1 (.aread 68 4) ok, .returns 1 {}, .after 1 ok]
  have hls : ∀ l ∈ ls, l.Appends := by
    simp [ls, ok, Move.Appends]
  have hrun : (Machine.run atomicAccesses.step { env := {} } ls).map
      (fun s => (s.env.history.map (fun x => (x.1, x.2.type, x.2.index)), s.env.access 3,
        s.env.access 4, decide (∀ n < s.env.next, (s.env.access n).call.aligned = true))) =
      some ([(1, .atomicWrite, 0), (3, .atomicRead, 2), (3, .atomicWrite, 3), (2, .atomicRead, 1),
          (4, .atomicRead, 4)],
        { tid := 2, call := .xchg 64 8, first := 2, second := 3, time := 2,
          seen := List.replicate 8 1, finished := true },
        { tid := 1, call := .aread 68 4, first := 4, second := 5, time := 3,
          seen := List.replicate 4 3, finished := true }, true) := by decide +kernel
  obtain ⟨s, hs, heq⟩ := Option.map_eq_some_iff.mp hrun
  simp only [Prod.mk.injEq, decide_eq_true_eq] at heq
  obtain ⟨hhistory, h₃, h₄, haligned⟩ := heq
  have hreach : atomicAccesses.Reaches {} s := Machine.Reach.of_run .start hls hs
  obtain ⟨-, -, hlinear, hreplay, -⟩ := accesses_linearised hreach
  refine ⟨s, hreach, hhistory, by rw [h₃], by rw [h₄], ?_, fun pre n r post hsplit hr i b hb =>
    hreplay pre n r post hsplit hr i b hb (Memory.guarded_of_aligned haligned b)⟩
  have hblock := hlinear 3 4 (by decide) (by rw [h₃]) (by rw [h₄]) 64 68
    (by rw [h₃]; rfl) (by rw [h₄]; rfl) (by decide)
  exact hblock.1.mp (by rw [h₃, h₄]; decide)

/-- A write of the bytes 60 to 67 locks the area of its address only, and another
thread writes the bytes 64 to 67 meanwhile.  Its write has the higher index and
takes effect first.  A read sees the other write, and a replay shows it this one. -/
theorem straddling_write_replayed_late :
    ∃ s pre n r post, atomicAccesses.Reaches {} s ∧
      sort (fun x : Nat × Logged => x.2.index) s.env.history = pre ++ (n, r) :: post ∧
      r.type = .atomicRead ∧ (s.env.access n).seen = [1, 1, 1, 1] ∧
      (bytes r.ptr r.size).map (replayed pre) = [2, 2, 2, 2] := by
  let ok : Nat → Bool := fun _ => true
  let ls : List (Move Empty) :=
    [.before 1 (.awrite 60 8) ok, .before 2 (.awrite 64 4) ok, .returns 2 {}, .returns 1 {},
      .after 1 ok, .after 2 ok, .before 3 (.aread 64 4) ok, .returns 3 {}, .after 3 ok]
  have hls : ∀ l ∈ ls, l.Appends := by
    simp [ls, ok, Move.Appends]
  let es : List (Nat × Logged) :=
    [(1, { tid := 1, type := .atomicWrite, ptr := 60, size := 8, index := 0 }),
      (2, { tid := 2, type := .atomicWrite, ptr := 64, size := 4, index := 1 }),
      (3, { tid := 3, type := .atomicRead, ptr := 64, size := 4, index := 2 })]
  have hrun : (Machine.run atomicAccesses.step { env := {} } ls).map
      (fun s => (s.env.history, (s.env.access 3).seen)) = some (es, [1, 1, 1, 1]) := by
    decide +kernel
  obtain ⟨s, hs, heq⟩ := Option.map_eq_some_iff.mp hrun
  rw [Prod.mk.injEq] at heq
  have hsorted : sort (fun x : Nat × Logged => x.2.index) s.env.history = es := by
    rw [heq.1]
    exact List.mergeSort_of_pairwise (by decide)
  refine ⟨s, es.take 2, 3, _, [], Machine.Reach.of_run .start hls hs, hsorted, rfl, heq.2, ?_⟩
  decide +kernel

end Coldtrace
