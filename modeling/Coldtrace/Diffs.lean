import Mathlib.Data.List.Infix
import Mathlib.Order.Bounds.Basic
import Mathlib.Tactic.Common
import Coldtrace.Lib.Bytes
import Coldtrace.Lib.Runs
import Coldtrace.Thread
import Coldtrace.Stack
import Coldtrace.Records
import Coldtrace.Appending
import Coldtrace.Coherence

/-!
# Stack diffs are exact

What the stack diff of a record is, said from the calls of the thread alone.
The depth is the size of the stack.  The number of frames kept is the lowest
size the stack had since the last record with a stack in the same fragment, and
0 when there is none.  The frames stored are the frames above it.

The lowest size is a fact about the history, and `Lowest` spells it out.  The
thread has only `stackBottom` to know it from.  That the two are the same is
the invariant (`Marked`), which no failing call can break.
-/

namespace Coldtrace

open Bytes Runs

/-! ## The pages of a thread -/

/-- The pages handed over and the page in the buffer. -/
def State.pages (s : State) : List (List UInt8) :=
  s.world.closed ++ (s.th.writer.buffer.map fun b => b.mem.load 0 s.th.writer.offset).toList

/-- The number of the page that the thread fills, or fills next. -/
def State.fragment (s : State) : Nat := s.world.closed.length

section

variable {B : Build} {before : List (List UInt8)} {s s' : State} {frags frags' : List (List Record)}
  {cur cur' : Option (List Record)} {tid : Nat}

theorem Coherent.pages_eq (h : Coherent B before s frags cur) :
    s.pages = before ++ (frags ++ cur.toList).map (pageOf B) := by
  rw [State.pages, h.closed, List.append_assoc, List.map_append]
  congr 2
  cases cur with
  | none => rw [(h.idle rfl).buffer]; rfl
  | some rs =>
      obtain ⟨b, hb, hload⟩ := (h.current rs rfl).holds
      rw [hb, Option.map_some, hload]
      rfl

theorem Coherent.fragment_eq (h : Coherent B before s frags cur) :
    s.fragment = before.length + frags.length := by
  rw [State.fragment, h.closed, List.length_append, List.length_map]

end

/-! ## The lowest size of the stack -/

/-- The call leaves a record with a stack. -/
def carries (B : Build) (tid : Nat) (s : State) (ev : Event) : Bool :=
  match ev.op with
  | .append e =>
      e.type.hasStack &&
        (threadAppend B tid ev.cfg ev.o s.th s.world e.byte e.ptr).1.isSome
  | _ => false

/-- None of the calls left a record with a stack in a fragment. -/
def NoneIn (B : Build) (tid : Nat) (s₀ : State) (pre : List Event) (k : Nat) : Prop :=
  Along (step B tid)
    (fun s ev => carries B tid s ev = true → (step B tid s ev).fragment ≠ k) s₀ pre

/-- The call `ev₁` left the last record with a stack, in the fragment `k`.
Since then the lowest size of the stack is `m`, and the frames below it stayed
as they are. -/
structure Since (B : Build) (tid : Nat) (s₀ : State) (k m : Nat) (pre₁ : List Event) (ev₁ : Event)
    (pre₂ : List Event) : Prop where
  carries : carries B tid (run B tid s₀ pre₁) ev₁ = true
  fragment : (run B tid s₀ (pre₁ ++ [ev₁])).fragment = k
  last : Along (step B tid) (fun s ev => Coldtrace.carries B tid s ev = false)
    (run B tid s₀ (pre₁ ++ [ev₁])) pre₂
  least : IsLeast {n | ∃ p, p <+: pre₂ ∧ n = (run B tid s₀ (pre₁ ++ ev₁ :: p)).th.stackSize} m
  kept : ∀ p, p <+: pre₂ → (run B tid s₀ (pre₁ ++ ev₁ :: p)).th.frames.take m =
    (run B tid s₀ (pre₁ ++ ev₁ :: pre₂)).th.frames.take m

/-- The lowest size of the stack since the last record with a stack, if that is
in the fragment `k`. -/
def Lowest (B : Build) (tid : Nat) (s₀ : State) (pre : List Event) (k m : Nat) : Prop :=
  ∃ pre₁ ev₁ pre₂, pre = pre₁ ++ ev₁ :: pre₂ ∧ Since B tid s₀ k m pre₁ ev₁ pre₂

section

variable {B : Build} {tid : Nat} {s₀ : State} {pre : List Event} {ev : Event} {k m : Nat}

theorem run_snoc (B : Build) (tid : Nat) (s₀ : State) (pre : List Event) (ev : Event) :
    run B tid s₀ (pre ++ [ev]) = step B tid (run B tid s₀ pre) ev := by
  rw [run_append, run_cons, run_nil]

theorem NoneIn.snoc (h : NoneIn B tid s₀ pre k)
    (hev : carries B tid (run B tid s₀ pre) ev = true →
      (run B tid s₀ (pre ++ [ev])).fragment ≠ k) : NoneIn B tid s₀ (pre ++ [ev]) k := by
  rw [run_snoc] at hev
  exact along_concat.mpr ⟨h, hev⟩

/-- A record with a stack is the last one. -/
theorem lowest_self (hc : carries B tid (run B tid s₀ pre) ev = true)
    (hk : (run B tid s₀ (pre ++ [ev])).fragment = k) :
    Lowest B tid s₀ (pre ++ [ev]) k (run B tid s₀ (pre ++ [ev])).th.stackSize := by
  refine ⟨pre, ev, [], rfl, hc, hk, along_nil, ⟨⟨[], List.prefix_refl _, rfl⟩, ?_⟩, ?_⟩
  · rintro n ⟨p, hp, rfl⟩
    rw [List.prefix_nil.mp hp]
  · intro p hp
    rw [List.prefix_nil.mp hp]

/-- A call without such a record lowers the lowest size to the size after it,
or leaves it. -/
theorem Lowest.snoc (h : Lowest B tid s₀ pre k m) {m' : Nat}
    (hc : carries B tid (run B tid s₀ pre) ev = false) (hm : m' ≤ m)
    (hle : m' ≤ (run B tid s₀ (pre ++ [ev])).th.stackSize)
    (hor : m' = m ∨ m' = (run B tid s₀ (pre ++ [ev])).th.stackSize)
    (htake : (run B tid s₀ (pre ++ [ev])).th.frames.take m' =
      (run B tid s₀ pre).th.frames.take m') :
    Lowest B tid s₀ (pre ++ [ev]) k m' := by
  obtain ⟨pre₁, ev₁, pre₂, rfl, hs⟩ := h
  have hassoc : pre₁ ++ ev₁ :: (pre₂ ++ [ev]) = pre₁ ++ ev₁ :: pre₂ ++ [ev] := by simp
  refine ⟨pre₁, ev₁, pre₂ ++ [ev], hassoc.symm, hs.carries, hs.fragment, ?_, ⟨?_, ?_⟩, ?_⟩
  · rw [List.append_cons, run_append] at hc
    exact along_concat.mpr ⟨hs.last, hc⟩
  · rcases hor with rfl | rfl
    · obtain ⟨p, hp, hsize⟩ := hs.least.1
      exact ⟨p, hp.trans (List.prefix_append ..), hsize⟩
    · exact ⟨pre₂ ++ [ev], List.prefix_refl _, by rw [hassoc]⟩
  · rintro n ⟨p, hp, rfl⟩
    rcases List.prefix_concat_iff.mp hp with rfl | hp
    · rw [hassoc]
      exact hle
    · exact Nat.le_trans hm (hs.least.2 ⟨p, hp, rfl⟩)
  · intro p hp
    rw [hassoc, htake]
    rcases List.prefix_concat_iff.mp hp with rfl | hp
    · rw [hassoc, htake]
    · have hkept := congrArg (List.take m') (hs.kept p hp)
      rwa [List.take_take, List.take_take, Nat.min_eq_left hm] at hkept

end

/-! ## The bottom of the stack is the lowest size -/

/-- The bottom of the stack is the lowest size of the stack, or 0 when the
fragment has no record with a stack. -/
inductive Marked (B : Build) (tid : Nat) (s₀ : State) (pre : List Event)
    (cur : Option (List Record)) : Prop where
  | none : NoneIn B tid s₀ pre (run B tid s₀ pre).fragment →
      (cur.isSome = true → (run B tid s₀ pre).th.stackBottom = 0) → Marked B tid s₀ pre cur
  | lowest : cur.isSome = true → Lowest B tid s₀ pre (run B tid s₀ pre).fragment
      (run B tid s₀ pre).th.stackBottom → Marked B tid s₀ pre cur

/-- The invariant of a run, with the records of its pages. -/
structure Exact (B : Build) (tid : Nat) (s₀ : State) (before : List (List UInt8))
    (pre : List Event) (frags : List (List Record)) (cur : Option (List Record)) : Prop where
  coherent : Coherent B before (run B tid s₀ pre) frags cur
  marked : Marked B tid s₀ pre cur
  past : Along (step B tid)
    (fun s ev => (step B tid s ev).fragment ≤ (run B tid s₀ pre).fragment) s₀ pre

section

variable {B : Build} {tid : Nat} {s₀ : State} {before : List (List UInt8)} {pre : List Event}
  {ev : Event} {frags frags' : List (List Record)} {cur cur' : Option (List Record)}

theorem Exact.past_snoc (h : Exact B tid s₀ before pre frags cur)
    (hle : (run B tid s₀ pre).fragment ≤ (run B tid s₀ (pre ++ [ev])).fragment) :
    Along (step B tid)
      (fun s ev' => (step B tid s ev').fragment ≤ (run B tid s₀ (pre ++ [ev])).fragment) s₀
      (pre ++ [ev]) := by
  refine along_concat.mpr ⟨h.past.imp fun _ _ hpast => Nat.le_trans hpast hle, ?_⟩
  rw [run_snoc]
  exact Nat.le_refl _

/-- A fragment after the current one has no record yet. -/
theorem Exact.noneIn_of_lt (h : Exact B tid s₀ before pre frags cur) {k : Nat}
    (hk : (run B tid s₀ pre).fragment < k) : NoneIn B tid s₀ pre k :=
  h.past.imp fun _ _ hpast _ => Nat.ne_of_lt (Nat.lt_of_le_of_lt hpast hk)

/-- A move of the stack keeps the invariant. -/
theorem Exact.move (h : Exact B tid s₀ before pre frags cur)
    (hc : carries B tid (run B tid s₀ pre) ev = false)
    (hw : (run B tid s₀ (pre ++ [ev])).world = (run B tid s₀ pre).world)
    (hm : StackMove (run B tid s₀ pre).th (run B tid s₀ (pre ++ [ev])).th)
    (hwf : (run B tid s₀ (pre ++ [ev])).th.StackWf)
    (hor : (run B tid s₀ (pre ++ [ev])).th.stackBottom = (run B tid s₀ pre).th.stackBottom ∨
      (run B tid s₀ (pre ++ [ev])).th.stackBottom = (run B tid s₀ (pre ++ [ev])).th.stackSize) :
    Exact B tid s₀ before (pre ++ [ev]) frags cur := by
  have hfrag : (run B tid s₀ (pre ++ [ev])).fragment = (run B tid s₀ pre).fragment := by
    rw [State.fragment, hw, State.fragment]
  refine ⟨?_, ?_, h.past_snoc (Nat.le_of_eq hfrag.symm)⟩
  · have hco := h.coherent.move hm hwf
    rw [← hw] at hco
    exact hco
  · cases h.marked with
    | none hnone hzero =>
        refine .none (hfrag ▸ hnone.snoc fun hcarry => ?_) fun hsome => ?_
        · rw [hc] at hcarry
          cases hcarry
        · have := hm.bottom_le
          have := hzero hsome
          omega
    | lowest hsome hlow =>
        exact .lowest hsome (hfrag ▸ hlow.snoc hc hm.bottom_le hwf.bottom_le hor hm.take)

theorem threadStackPop_bottom (tid : Nat) {th : Thread} (hi : th.initd = true) :
    (threadStackPop tid th).stackBottom = th.stackBottom ∨
      (threadStackPop tid th).stackBottom = (threadStackPop tid th).stackSize := by
  rw [threadStackPop, getColdtraceThread_of_initd hi]
  split
  next => exact .inl rfl
  next =>
    split
    next =>
      dsimp only
      split
      next => exact .inr rfl
      next => exact .inl rfl
    next => exact .inl rfl

theorem Pushed.bottom {o : Outcomes} {th th' : Thread} {caller : UInt64}
    (h : Pushed o th caller th') : th'.stackBottom = th.stackBottom := by
  cases h with
  | refused _ heq => rw [heq]
  | failed _ _ heq => rw [heq]
  | added _ _ _ _ hb _ _ _ _ => exact hb

/-- Handing over the page in the buffer ends the fragment. -/
theorem Exact.close (h : Exact B tid s₀ before pre frags cur)
    (hc : carries B tid (run B tid s₀ pre) ev = false) {more : List (List Record)}
    (hco : Coherent B before (run B tid s₀ (pre ++ [ev])) (frags ++ more) none)
    (hmore : more = [] → cur = none) :
    Exact B tid s₀ before (pre ++ [ev]) (frags ++ more) none := by
  have hfrag := h.coherent.fragment_eq
  have hfrag' := hco.fragment_eq
  rw [List.length_append] at hfrag'
  refine ⟨hco, .none (NoneIn.snoc ?_ fun hcarry => ?_) fun hn => (nomatch hn),
    h.past_snoc (by omega)⟩
  · rcases Nat.eq_zero_or_pos more.length with hz | hpos
    · have hnone := hmore (List.eq_nil_of_length_eq_zero hz)
      cases h.marked with
      | none hno _ =>
          rw [show (run B tid s₀ (pre ++ [ev])).fragment = (run B tid s₀ pre).fragment by omega]
          exact hno
      | lowest hsome _ =>
          rw [hnone] at hsome
          cases hsome
    · exact h.noneIn_of_lt (by omega)
  · rw [hc] at hcarry
    cases hcarry

theorem carries_append (B : Build) (tid : Nat) (s : State) (cfg : Config) (o : Outcomes)
    (e : Entry) : carries B tid s ⟨cfg, o, .append e⟩ = (e.type.hasStack &&
      (threadAppend B tid cfg o s.th s.world e.byte e.ptr).1.isSome) := rfl

/-- An append keeps the invariant. -/
theorem Exact.append (h : Exact B tid s₀ before pre frags cur) (cfg : Config) (o : Outcomes)
    (e : Entry) :
    ∃ frags' cur', Exact B tid s₀ before (pre ++ [⟨cfg, o, .append e⟩]) frags' cur' := by
  have hcase := append_recorded tid cfg o e h.coherent
  have hcarry := carries_append B tid (run B tid s₀ pre) cfg o e
  have hrun : run B tid s₀ (pre ++ [⟨cfg, o, .append e⟩]) =
      subscriberAppend B tid cfg o (run B tid s₀ pre) e := run_snoc ..
  have hfrag := h.coherent.fragment_eq
  rw [← hrun] at hcase
  generalize (threadAppend B tid cfg o (run B tid s₀ pre).th
    (run B tid s₀ pre).world e.byte e.ptr).1 = off at hcase hcarry
  generalize hs' : run B tid s₀ (pre ++ [⟨cfg, o, .append e⟩]) = s' at hcase
  cases hcase with
  | failed hf =>
      refine ⟨frags, cur, h.move (by rw [hcarry]; exact Bool.and_false _) ?_ ?_ ?_ (.inl ?_)⟩ <;>
        rw [hs']
      · exact .refl _
      · exact h.coherent.stack
  | refused hnone hco =>
      rw [← hs', ← List.append_nil frags] at hco
      exact ⟨_, _, h.close (by rw [hcarry]; exact Bool.and_false _) hco
        fun _ => hnone⟩
  | broken hco =>
      rw [← hs'] at hco
      exact ⟨_, _, h.close (by rw [hcarry]; exact Bool.and_false _) hco
        fun hn => nomatch hn⟩
  | inPage _ _ hzero hframes hsize hbottom hco =>
      rw [← hs'] at hco hframes hsize hbottom
      have hfrag' := hco.fragment_eq
      have heq : (run B tid s₀ (pre ++ [⟨cfg, o, .append e⟩])).fragment =
          (run B tid s₀ pre).fragment := by omega
      refine ⟨frags, _, hco, ?_, h.past_snoc (by omega)⟩
      cases hs : e.type.hasStack with
      | true =>
          rw [hs, if_pos rfl] at hbottom
          refine .lowest rfl ?_
          rw [hbottom, ← hsize]
          exact lowest_self (by rw [hcarry, hs]; rfl) rfl
      | false =>
          have hc : carries B tid (run B tid s₀ pre) ⟨cfg, o, .append e⟩ = false := by
            rw [hcarry, hs]
            rfl
          rw [hs, if_neg Bool.false_ne_true] at hbottom
          cases h.marked with
          | none hno hz =>
              refine .none (heq ▸ hno.snoc fun hcarry => ?_) fun _ => ?_
              · rw [hc] at hcarry
                cases hcarry
              · rw [hbottom]
                cases cur with
                | none => exact hzero rfl
                | some rs => exact hz rfl
          | lowest hsome hlow =>
              refine .lowest rfl (heq ▸ hlow.snoc hc (Nat.le_of_eq hbottom) ?_ (.inl hbottom) ?_)
              · exact hco.stack.bottom_le
              · rw [hframes]
  | rolled _ _ hframes hsize hbottom hco =>
      rw [← hs'] at hco hframes hsize hbottom
      have hfrag' := hco.fragment_eq
      rw [List.length_append, List.length_singleton] at hfrag'
      refine ⟨_, _, hco, ?_, h.past_snoc (by omega)⟩
      cases hs : e.type.hasStack with
      | true =>
          rw [hs, if_pos rfl] at hbottom
          refine .lowest rfl ?_
          rw [hbottom, ← hsize]
          exact lowest_self (by rw [hcarry, hs]; rfl) rfl
      | false =>
          rw [hs, if_neg Bool.false_ne_true] at hbottom
          refine .none ((h.noneIn_of_lt (by omega)).snoc fun hc => ?_) fun _ => hbottom
          rw [hcarry, hs] at hc
          cases hc

/-- Every call but another `init` keeps the invariant. -/
theorem Exact.step (h : Exact B tid s₀ before pre frags cur) (hop : ev.op ≠ .init)
    (hs : (run B tid s₀ (pre ++ [ev])).th.stackSize < 2 ^ 31) :
    ∃ frags' cur', Exact B tid s₀ before (pre ++ [ev]) frags' cur' := by
  obtain ⟨cfg, o, op⟩ := ev
  have hi := h.coherent.initd
  have hrun := run_snoc B tid s₀ pre ⟨cfg, o, op⟩
  cases op with
  | init => exact absurd rfl hop
  | fini =>
      have hco : Coherent B before (run B tid s₀ (pre ++ [⟨cfg, o, .fini⟩])) (frags ++ cur.toList)
          none := by
        rw [hrun]
        exact h.coherent.fini tid o
      refine ⟨_, _, h.close rfl hco fun hn => ?_⟩
      cases cur with
      | none => rfl
      | some rs => cases hn
  | push caller =>
      have hp := threadStackPush_spec tid o hi h.coherent.stack caller
      have hth : (run B tid s₀ (pre ++ [⟨cfg, o, .push caller⟩])).th =
          threadStackPush tid o (run B tid s₀ pre).th caller := by rw [hrun]; rfl
      rw [hth] at hs
      refine ⟨frags, cur, h.move rfl (by rw [hrun]; rfl) ?_ ?_ (.inl ?_)⟩ <;> rw [hth]
      · exact hp.move h.coherent.stack
      · exact hp.stackWf h.coherent.stack hs
      · exact hp.bottom
  | pop =>
      obtain ⟨hwf, hm, -⟩ := threadStackPop_spec tid hi h.coherent.stack
      have hth : (run B tid s₀ (pre ++ [⟨cfg, o, .pop⟩])).th =
          threadStackPop tid (run B tid s₀ pre).th := by rw [hrun]; rfl
      refine ⟨frags, cur, h.move rfl (by rw [hrun]; rfl) ?_ ?_ ?_⟩ <;> rw [hth]
      · exact hm
      · exact hwf
      · exact threadStackPop_bottom tid hi
  | append e => exact h.append cfg o e

/-- The states of a run keep the invariant. -/
theorem exact_run : ∀ (post : List Event) {pre : List Event} {frags : List (List Record)}
    {cur : Option (List Record)}, Exact B tid s₀ before pre frags cur →
    (∀ ev ∈ post, ev.op ≠ .init) →
    (∀ p, p <+: post → (run B tid s₀ (pre ++ p)).th.stackSize < 2 ^ 31) →
    ∃ frags' cur', Exact B tid s₀ before (pre ++ post) frags' cur'
  | [], pre, frags, cur, h, _, _ => ⟨frags, cur, by rw [List.append_nil]; exact h⟩
  | ev :: post, pre, frags, cur, h, hop, hs => by
      rw [List.forall_mem_cons] at hop
      obtain ⟨frags₁, cur₁, h₁⟩ := h.step hop.1 (hs [ev] (by simp))
      obtain ⟨frags₂, cur₂, h₂⟩ := exact_run post h₁ hop.2 fun p hp => by
        have := hs (ev :: p) (by simpa using hp)
        rwa [List.append_assoc]
      rw [List.append_assoc] at h₂
      exact ⟨frags₂, cur₂, h₂⟩

theorem exact_init (B : Build) (tid : Nat) (w : World) :
    Exact B tid ⟨threadInit tid {}, w⟩ w.closed [] [] none where
  coherent := coherent_init B tid w
  marked := .none (fun pre₁ _ _ h => by cases pre₁ <;> cases h) fun hn => nomatch hn
  past pre₁ _ _ h := by cases pre₁ <;> cases h

end

/-! ## The diffs of a run -/

/-- The bytes of a record in a page. -/
theorem take_drop_pageOf (B : Build) {rs rs' : List Record} {r : Record}
    (h : rs ++ [r] <+: rs') :
    ((pageOf B rs').drop (pageOf B rs).length).take r.bytes.length = r.bytes := by
  obtain ⟨more, rfl⟩ := h
  have hpage : pageOf B (rs ++ [r] ++ more) = pageOf B rs ++ (r.bytes ++ recordsBytes more) := by
    rw [pageOf, pageOf, recordsBytes_append, recordsBytes_append, recordsBytes_cons,
      recordsBytes_nil, List.append_nil, List.append_assoc, List.append_assoc]
  rw [hpage, List.drop_left, List.take_left]

/-- Every record with a stack has an exact stack diff, whatever the calls before
and after it and their outcomes.  The record stays in its page as it is. -/
theorem stack_diffs_exact (B : Build) (tid : Nat) (w : World) (init : Event)
    (hinit : init.op = .init) (pre post : List Event) (cfg : Config) (o : Outcomes) (e : Entry)
    (hops : ∀ ev ∈ pre ++ ⟨cfg, o, .append e⟩ :: post, ev.op ≠ .init)
    (hframes : ∀ p, p <+: pre ++ ⟨cfg, o, .append e⟩ :: post →
      (run B tid { world := w } (init :: p)).th.stackSize < 2 ^ 31)
    (hs : e.type.hasStack = true) (off : Nat)
    (hoff : (threadAppend B tid cfg o (run B tid { world := w } (init :: pre)).th
      (run B tid { world := w } (init :: pre)).world e.byte e.ptr).1 = some off) :
    let s₀ := run B tid { world := w } [init]
    let s := run B tid s₀ pre
    let k := (run B tid s₀ (pre ++ [⟨cfg, o, .append e⟩])).fragment
    ∃ r : Record,
      (∃ page, (run B tid s₀ (pre ++ ⟨cfg, o, .append e⟩ :: post)).pages[k]? = some page ∧
        (page.drop off).take r.bytes.length = r.bytes) ∧
      r.type = e.type ∧ r.depth = s.th.stackSize ∧ r.diff = s.th.frames.drop r.popped ∧
      (NoneIn B tid s₀ pre k ∧ r.popped = 0 ∨ Lowest B tid s₀ pre k r.popped) := by
  intro s₀ s k
  have hs₀ : s₀ = ⟨threadInit tid {}, w⟩ := by
    change run B tid { world := w } [init] = _
    rw [run_cons, run_nil, step, hinit]
  have hsmall : ∀ p, p <+: pre ++ ⟨cfg, o, .append e⟩ :: post →
      (run B tid s₀ p).th.stackSize < 2 ^ 31 := hframes
  rw [List.forall_mem_append, List.forall_mem_cons] at hops
  obtain ⟨frags, cur, hex⟩ := exact_run pre (hs₀ ▸ exact_init B tid w) hops.1
    fun p hp => hsmall p (hp.trans (List.prefix_append ..))
  rw [List.nil_append] at hex
  have hco : Coherent B w.closed s frags cur := hex.coherent
  have hcase := append_recorded tid cfg o e hco
  have hrun : run B tid s₀ (pre ++ [⟨cfg, o, .append e⟩]) = subscriberAppend B tid cfg o s e :=
    run_snoc ..
  have hpopped : (s.th.record hco.stack cfg e).popped = s.th.base cfg e := if_pos hs
  have hdepth : (s.th.record hco.stack cfg e).depth = s.th.stackSize :=
    (if_pos hs).trans hco.stack.length_frames
  have hdiff : (s.th.record hco.stack cfg e).diff = s.th.frames.drop (s.th.base cfg e) := if_pos hs
  -- the record stays in its page, for the pages only grow
  have hstays : ∀ {frags' : List (List Record)} {rs : List Record},
      off = (pageOf B rs).length →
      Coherent B w.closed (subscriberAppend B tid cfg o s e) frags'
        (some (rs ++ [s.th.record hco.stack cfg e])) →
      ∃ page, (run B tid s₀ (pre ++ ⟨cfg, o, .append e⟩ :: post)).pages[k]? = some page ∧
        (page.drop off).take (s.th.record hco.stack cfg e).bytes.length =
          (s.th.record hco.stack cfg e).bytes := by
    intro frags' rs hpage h'
    obtain ⟨frags₂, cur₂, h₂, hgrows⟩ := coherent_run tid post h' hops.2.2 fun p hp => by
      have hle := hsmall (pre ++ ⟨cfg, o, .append e⟩ :: p)
        ((List.prefix_append_right_inj _).mpr ((List.prefix_cons_inj _).mpr hp))
      rwa [List.append_cons, run_append, hrun] at hle
    have hk : k = w.closed.length + frags'.length := by
      rw [← h'.fragment_eq, ← hrun]
    obtain ⟨rs', hrs', hprefix⟩ := hgrows frags'.length (rs ++ [s.th.record hco.stack cfg e])
      (by simp)
    refine ⟨pageOf B rs', ?_, hpage ▸ take_drop_pageOf B hprefix⟩
    rw [List.append_cons, run_append, hrun, h₂.pages_eq, hk,
      List.getElem?_append_right (Nat.le_add_right ..), Nat.add_sub_cancel_left, List.getElem?_map,
      hrs', Option.map_some]
  refine ⟨s.th.record hco.stack cfg e, ?_⟩
  rw [hpopped, hdiff, hdepth]
  have hfrag := hco.fragment_eq
  have hsome : (threadAppend B tid cfg o s.th s.world e.byte e.ptr).1 = some off := hoff
  rw [hsome] at hcase
  generalize hs' : subscriberAppend B tid cfg o s e = s' at hcase
  cases hcase with
  | inPage hpage hbase hzero _ _ _ h' =>
      rw [← hs'] at h'
      have hk : k = s.fragment := by
        rw [hfrag, ← h'.fragment_eq, ← hrun]
      refine ⟨hstays hpage h', rfl, rfl, rfl, ?_⟩
      rw [hbase, hk]
      cases hex.marked with
      | none hno hz =>
          refine .inl ⟨hno, ?_⟩
          cases cur with
          | none => exact hzero rfl
          | some rs => exact hz rfl
      | lowest _ hlow => exact .inr hlow
  | rolled hpage hbase _ _ _ h' =>
      rw [← hs'] at h'
      have hk : s.fragment < k := by
        have hk := h'.fragment_eq
        rw [List.length_append, List.length_singleton, ← hrun] at hk
        change _ < (run B tid s₀ (pre ++ [⟨cfg, o, .append e⟩])).fragment
        change s.fragment = _ at hfrag
        omega
      have hempty : off = (pageOf B []).length := by
        rw [hpage, pageOf, recordsBytes_nil, List.append_nil, B.length_versionHeader]
      exact ⟨hstays hempty h', rfl, rfl, rfl, .inl ⟨hex.noneIn_of_lt hk, hbase⟩⟩

/-- A write under one frame, then a second frame, and a second write: the
first frame is kept. -/
theorem stack_diffs_exact_write :
    let cfg : Config := { traceSize := 256, writesDisabled := true }
    let write : Event := { cfg, op := .append { type := .write, ptr := 5 } }
    let s₀ := run literalBuild 3 {} [⟨cfg, {}, .init⟩]
    let pre := [⟨cfg, {}, .push 7⟩, write, ⟨cfg, {}, .push 8⟩]
    ∃ r : Record, r.depth = 2 ∧
      (NoneIn literalBuild 3 s₀ pre 0 ∧ r.popped = 0 ∨
        Lowest literalBuild 3 s₀ pre 0 r.popped) := by
  intro cfg write s₀ pre
  obtain ⟨r, -, -, hdepth, -, hpopped⟩ := stack_diffs_exact literalBuild 3 {} ⟨cfg, {}, .init⟩ rfl
    pre [] cfg {} { type := .write, ptr := 5 } (by simp [pre, write]) (by
      intro p hp
      rw [← List.mem_inits] at hp
      revert p
      decide) rfl 48 (by decide)
  have hk : (run literalBuild 3 s₀
      (pre ++ [⟨cfg, {}, .append { type := .write, ptr := 5 }⟩])).fragment = 0 := by decide
  rw [hk] at hpopped
  exact ⟨r, hdepth.trans (by decide), hpopped⟩

end Coldtrace
